import Std.Data.ExtTreeMap
import TupleLang.Program.Basic
import TupleLang.Value

/-!
# Running programs

`Program.interpret` runs a program on its tree and returns the words it prints.  Every stage that
keeps the shape of the source can be run in this way.  The heap has no end, so `free_ptr` is always
far below the other globals of the run-time system.

A run has a budget: each statement takes one unit when it begins, and each finished turn of a loop
takes one more.  A run that needs more units than it has ends with `EvalError.outOfFuel`.

Recursion goes down the tree, except where code is entered again: at a call, and at each turn of a
loop.  `Interpreter.enter` counts how deep such entries are nested.  A unit of the budget lies
between two levels of calls, and a turn of a loop is at most one level on top of that, so the depth
`2 * budget + 2`, with which a run starts, is never used up before the budget is.
-/

namespace TupleLang

namespace Interpreter

/-- The values of the variables of the function that is running. -/
abbrev Locals := Std.ExtTreeMap Name Value

/-- What changes while a program runs. -/
structure State where
  /-- The variables of the function that is running. -/
  locals : Locals := ∅
  /-- The tuples made so far. -/
  heap : Heap := #[]
  /-- The words printed so far. -/
  output : Array Word := #[]
  /-- What is left of the budget. -/
  fuel : Nat

/-- What stays the same while a program runs. -/
structure Context where
  /-- The functions by their names; of two with the same name the last one counts. -/
  functions : Std.ExtTreeMap Name Function
  /-- The budget of the whole run. -/
  budget : Nat

/-- A computation of a running program. -/
abbrev Eval := StateT State (Except EvalError)

/-- How statements end. -/
inductive Completion where
  /-- The statements after them are next. -/
  | next
  /-- The function returns. -/
  | returned (value : Value)

/-- Code that is entered anew. -/
inductive Entry where
  /-- The body of a function. -/
  | body (statements : List Stmt)
  /-- One more turn of a loop. -/
  | turn (condition : Expr) (body : List Stmt)

/-- Takes one unit from the budget. -/
def spend (context : Context) : Eval Unit := do
  let state ← get
  match state.fuel with
  | 0 => throw (.outOfFuel context.budget)
  | fuel + 1 => set { state with fuel }

/-- Refuses a value. -/
def invalid {α : Type} (operation : String) (value : Value) : Eval α := do
  throw (.invalidOperand operation (value.text (← get).heap))

/-- The truth value that a condition gives. -/
def condition (value : Value) : Eval Bool := do
  value.asCondition (← get).heap

/-- Makes a new tuple. -/
def newTuple (fields : List Value) : Eval Value :=
  modifyGet fun state =>
    (.tuple state.heap.size, { state with heap := state.heap.push fields })

/-- Sets a field of the tuple that a variable holds. -/
def setField (tuple : Name) (index : Nat) (value : Value) : Eval Unit := do
  let state ← get
  match state.locals[tuple]? with
  | none => throw (.unboundVariable tuple)
  | some (.tuple address) =>
    let fields := state.heap.fields address
    if index < fields.length then
      set { state with heap := state.heap.setIfInBounds address (fields.set index value) }
    else
      throw (.indexOutOfBounds (Word.ofCount index)
        ("tuple of length " ++ toString fields.length))
  | some other => invalid "tuple_set" other

/-- The variables of a call: each parameter holds its argument.  Of equal parameters the last one
counts, and parameters without an argument are not bound. -/
def bindArguments (parameters : List Name) (arguments : List Value) : Locals :=
  (parameters.zip arguments).foldl (fun locals (name, value) => locals.insert name value) ∅

/-- Calls a function, whose body is entered by `enter`.  A function that runs off its end returns
zero. -/
def call (context : Context) (enter : Entry → Eval Completion) (target : Value)
    (arguments : List Value) : Eval Value := do
  match target with
  | .function name =>
    match context.functions[name]? with
    | none => throw (.unboundVariable name)
    | some function =>
      let caller := (← get).locals
      let locals := bindArguments (function.parameters.map Prod.fst) arguments
      modify ({ · with locals })
      let completion ← enter (.body function.body)
      modify ({ · with locals := caller })
      match completion with
      | .returned value => return value
      | .next => return .int 0
  | other => invalid "call" other

/-- The value of a global of the run-time system. -/
def globalValue (name : Name) : Value :=
  if name = Name.freePointer then .int 0 else .int Int64.maxValue

end Interpreter

open Interpreter

mutual

/-- The value of an expression; `enter` runs the code that is entered anew. -/
def Expr.eval (context : Context) (enter : Entry → Eval Completion) : Expr → Eval Value
  | .var name => do
    match (← get).locals[name]? with
    | some value => return value
    | none =>
      if context.functions.contains name then return .function name
      else throw (.unboundVariable name)
  | .const (.int value) => return .int value
  | .const (.bool value) => return .bool value
  | .primitive .and [lhs, rhs] => do
    let left ← condition (← lhs.eval context enter)
    if left then return .bool (← condition (← rhs.eval context enter)) else return .bool false
  | .primitive .or [lhs, rhs] => do
    let left ← condition (← lhs.eval context enter)
    if left then return .bool true else return .bool (← condition (← rhs.eval context enter))
  | .primitive operator operands => do
    let values ← Expr.evalAll context enter operands
    Value.primitive (← get).heap operator values
  | .call target arguments => do
    let target ← target.eval context enter
    let arguments ← Expr.evalAll context enter arguments
    call context enter target arguments
  | .tuple fields => do
    newTuple (← Expr.evalAll context enter fields)
  | .begin statements value => do
    match ← Stmt.execBlock context enter statements with
    | .returned value => return value
    | .next => value.eval context enter
  | .global name => return globalValue name
  | .allocate _ (.tuple fields) => newTuple (fields.map fun _ => .int 0)
  | .allocate _ ty => throw (.invalidOperand "allocate" ty.text)

/-- The values of expressions, from left to right. -/
def Expr.evalAll (context : Context) (enter : Entry → Eval Completion) :
    List Expr → Eval (List Value)
  | [] => return []
  | expression :: expressions => do
    let value ← expression.eval context enter
    return value :: (← Expr.evalAll context enter expressions)

/-- Runs a statement. -/
def Stmt.exec (context : Context) (enter : Entry → Eval Completion) : Stmt → Eval Completion
  | .assign target value => do
    spend context
    let value ← value.eval context enter
    modify fun state => { state with locals := state.locals.insert target value }
    return .next
  | .print value => do
    spend context
    let value ← value.eval context enter
    match value.word? with
    | some word =>
      modify fun state => { state with output := state.output.push word }
      return .next
    | none => invalid "print" value
  | .ifElse test positive negative => do
    spend context
    if ← condition (← test.eval context enter) then
      Stmt.execBlock context enter positive
    else
      Stmt.execBlock context enter negative
  | .whileDo test body => do
    spend context
    enter (.turn test body)
  | .ret value => do
    spend context
    return .returned (← value.eval context enter)
  | .define _ _ _ _ | .collect _ => do
    spend context
    return .next
  | .setField tuple index value => do
    spend context
    let value ← value.eval context enter
    setField tuple index value
    return .next

/-- Runs statements one after the other, until one returns. -/
def Stmt.execBlock (context : Context) (enter : Entry → Eval Completion) :
    List Stmt → Eval Completion
  | [] => return .next
  | statement :: statements => do
    match ← statement.exec context enter with
    | .returned value => return .returned value
    | .next => Stmt.execBlock context enter statements

end

namespace Interpreter

/-- Runs code that is entered anew, with entries nested at most `depth` deep. -/
def enter (context : Context) : (depth : Nat) → Entry → Eval Completion
  | 0, _ => throw (.outOfFuel context.budget)
  | depth + 1, .body statements => Stmt.execBlock context (enter context depth) statements
  | depth + 1, .turn test body => do
    if ← condition (← test.eval context (enter context depth)) then
      match ← Stmt.execBlock context (enter context depth) body with
      | .returned value => return .returned value
      | .next =>
        spend context
        enter context depth (.turn test body)
    else
      return .next

/-- The functions of a program by their names. -/
def functionTable (program : Program) : Std.ExtTreeMap Name Function :=
  program.functions.foldl (fun table function => table.insert function.name function) ∅

/-- The budget of a run for which none is given. -/
def defaultBudget : Nat := 1000000

end Interpreter

/-- The words that a program prints, in order, when it runs on the given budget. -/
def Program.interpret (program : Program) (budget : Nat) : Except EvalError (List Word) := do
  let context : Context := ⟨functionTable program, budget⟩
  let (_, state) ←
    (Stmt.execBlock context (enter context (2 * budget + 2)) program.statements).run
      { fuel := budget }
  return state.output.toList

end TupleLang
