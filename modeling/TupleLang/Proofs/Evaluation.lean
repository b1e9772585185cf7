import TupleLang.Interpreter

/-!
# Runs without a budget

`Program.interpret` runs a program on a budget, and counts how deep calls and loops are nested.
Neither matters once a run has ended well.  `Interpreter.Runs` is the same evaluation without
them: a relation between a `Task`, the `Store` before it, its `Outcome`, and the store after it.
One relation covers expressions, statements and loops, so that one induction covers a whole run.

A run can be asked to be *steady*: then it never returns from a function while it evaluates an
expression.
-/

namespace TupleLang

namespace Interpreter

/-- What a run works on, its budget apart. -/
structure Store where
  /-- The variables of the function that is running. -/
  locals : Locals := ∅
  /-- The tuples made so far. -/
  heap : Heap := #[]
  /-- The words printed so far. -/
  output : Array Word := #[]

/-- The store of a state. -/
def State.store (state : State) : Store :=
  ⟨state.locals, state.heap, state.output⟩

/-- The state with the given store and budget. -/
def Store.withFuel (store : Store) (fuel : Nat) : State :=
  ⟨store.locals, store.heap, store.output, fuel⟩

/-- What there is to run. -/
inductive Task where
  | expr (expression : Expr)
  | exprs (expressions : List Expr)
  | stmt (statement : Stmt)
  | block (statements : List Stmt)
  /-- A loop, before it looks at its condition. -/
  | turn (condition : Expr) (body : List Stmt)

/-- What a task ends with. -/
inductive Outcome where
  | value (value : Value)
  | values (values : List Value)
  | ended (completion : Completion)

/-- What a call gives when the body ends in the given way. -/
def Completion.result : Completion → Value
  | returned value => value
  | next => .int 0

/-- The evaluation of a task from one store to another.  In a steady one no expression returns. -/
inductive Runs (steady : Bool) (functions : Std.ExtTreeMap Name Function) :
    Task → Store → Outcome → Store → Prop where
  | local {σ : Store} {name : Name} {value : Value} (h : σ.locals[name]? = some value) :
    Runs steady functions (.expr (.var name)) σ (.value value) σ
  | function {σ : Store} {name : Name} (h : σ.locals[name]? = none)
      (hname : functions.contains name) :
    Runs steady functions (.expr (.var name)) σ (.value (.function name)) σ
  | int {σ : Store} (value : Word) :
    Runs steady functions (.expr (.const (.int value))) σ (.value (.int value)) σ
  | bool {σ : Store} (value : Bool) :
    Runs steady functions (.expr (.const (.bool value))) σ (.value (.bool value)) σ
  | andTrue {σ σ₁ σ₂ : Store} {lhs rhs : Expr} {right : Bool}
      (hl : Runs steady functions (.expr lhs) σ (.value (.bool true)) σ₁)
      (hr : Runs steady functions (.expr rhs) σ₁ (.value (.bool right)) σ₂) :
    Runs steady functions (.expr (.primitive .and [lhs, rhs])) σ (.value (.bool right)) σ₂
  | andFalse {σ σ₁ : Store} {lhs rhs : Expr}
      (hl : Runs steady functions (.expr lhs) σ (.value (.bool false)) σ₁) :
    Runs steady functions (.expr (.primitive .and [lhs, rhs])) σ (.value (.bool false)) σ₁
  | orTrue {σ σ₁ : Store} {lhs rhs : Expr}
      (hl : Runs steady functions (.expr lhs) σ (.value (.bool true)) σ₁) :
    Runs steady functions (.expr (.primitive .or [lhs, rhs])) σ (.value (.bool true)) σ₁
  | orFalse {σ σ₁ σ₂ : Store} {lhs rhs : Expr} {right : Bool}
      (hl : Runs steady functions (.expr lhs) σ (.value (.bool false)) σ₁)
      (hr : Runs steady functions (.expr rhs) σ₁ (.value (.bool right)) σ₂) :
    Runs steady functions (.expr (.primitive .or [lhs, rhs])) σ (.value (.bool right)) σ₂
  | primitive {σ σ₁ : Store} {operator : Operator} {operands : List Expr} {values : List Value}
      {value : Value} (hstrict : operator.isShortCircuiting = false)
      (hs : Runs steady functions (.exprs operands) σ (.values values) σ₁)
      (hvalue : Value.primitive σ₁.heap operator values = .ok value) :
    Runs steady functions (.expr (.primitive operator operands)) σ (.value value) σ₁
  | call {σ σ₁ σ₂ σ₃ : Store} {target : Expr} {arguments : List Expr} {name : Name}
      {values : List Value} {function : Function} {completion : Completion}
      (ht : Runs steady functions (.expr target) σ (.value (.function name)) σ₁)
      (hs : Runs steady functions (.exprs arguments) σ₁ (.values values) σ₂)
      (hfunction : functions[name]? = some function)
      (hbody : Runs steady functions (.block function.body)
        { σ₂ with locals := bindArguments (function.parameters.map Prod.fst) values }
        (.ended completion) σ₃) :
    Runs steady functions (.expr (.call target arguments)) σ (.value completion.result)
      { σ₃ with locals := σ₂.locals }
  | tuple {σ σ₁ : Store} {fields : List Expr} {values : List Value}
      (hs : Runs steady functions (.exprs fields) σ (.values values) σ₁) :
    Runs steady functions (.expr (.tuple fields)) σ (.value (.tuple σ₁.heap.size))
      { σ₁ with heap := σ₁.heap.push values }
  | beginReturned {σ σ₁ : Store} {statements : List Stmt} {value : Expr} {returned : Value}
      (hsteady : steady = false)
      (hs : Runs steady functions (.block statements) σ (.ended (.returned returned)) σ₁) :
    Runs steady functions (.expr (.begin statements value)) σ (.value returned) σ₁
  | beginNext {σ σ₁ σ₂ : Store} {statements : List Stmt} {value : Expr} {result : Value}
      (hs : Runs steady functions (.block statements) σ (.ended .next) σ₁)
      (hv : Runs steady functions (.expr value) σ₁ (.value result) σ₂) :
    Runs steady functions (.expr (.begin statements value)) σ (.value result) σ₂
  | global {σ : Store} (name : Name) :
    Runs steady functions (.expr (.global name)) σ (.value (globalValue name)) σ
  | allocate {σ : Store} (bytes : Nat) (fields : List Ty) :
    Runs steady functions (.expr (.allocate bytes (.tuple fields))) σ
      (.value (.tuple σ.heap.size)) { σ with heap := σ.heap.push (fields.map fun _ => .int 0) }
  | exprsNil {σ : Store} : Runs steady functions (.exprs []) σ (.values []) σ
  | exprsCons {σ σ₁ σ₂ : Store} {expression : Expr} {expressions : List Expr} {value : Value}
      {values : List Value}
      (hv : Runs steady functions (.expr expression) σ (.value value) σ₁)
      (hs : Runs steady functions (.exprs expressions) σ₁ (.values values) σ₂) :
    Runs steady functions (.exprs (expression :: expressions)) σ (.values (value :: values)) σ₂
  | assign {σ σ₁ : Store} {target : Name} {value : Expr} {result : Value}
      (hv : Runs steady functions (.expr value) σ (.value result) σ₁) :
    Runs steady functions (.stmt (.assign target value)) σ (.ended .next)
      { σ₁ with locals := σ₁.locals.insert target result }
  | print {σ σ₁ : Store} {value : Expr} {result : Value} {word : Word}
      (hv : Runs steady functions (.expr value) σ (.value result) σ₁)
      (hword : result.word? = some word) :
    Runs steady functions (.stmt (.print value)) σ (.ended .next)
      { σ₁ with output := σ₁.output.push word }
  | ifTrue {σ σ₁ σ₂ : Store} {condition : Expr} {positive negative : List Stmt}
      {completion : Completion}
      (hc : Runs steady functions (.expr condition) σ (.value (.bool true)) σ₁)
      (hs : Runs steady functions (.block positive) σ₁ (.ended completion) σ₂) :
    Runs steady functions (.stmt (.ifElse condition positive negative)) σ (.ended completion) σ₂
  | ifFalse {σ σ₁ σ₂ : Store} {condition : Expr} {positive negative : List Stmt}
      {completion : Completion}
      (hc : Runs steady functions (.expr condition) σ (.value (.bool false)) σ₁)
      (hs : Runs steady functions (.block negative) σ₁ (.ended completion) σ₂) :
    Runs steady functions (.stmt (.ifElse condition positive negative)) σ (.ended completion) σ₂
  | whileDo {σ σ₁ : Store} {condition : Expr} {body : List Stmt} {completion : Completion}
      (ht : Runs steady functions (.turn condition body) σ (.ended completion) σ₁) :
    Runs steady functions (.stmt (.whileDo condition body)) σ (.ended completion) σ₁
  | ret {σ σ₁ : Store} {value : Expr} {result : Value}
      (hv : Runs steady functions (.expr value) σ (.value result) σ₁) :
    Runs steady functions (.stmt (.ret value)) σ (.ended (.returned result)) σ₁
  | define {σ : Store} (name : Name) (parameters : List (Name × Ty)) (output : Ty)
      (body : List Stmt) :
    Runs steady functions (.stmt (.define name parameters output body)) σ (.ended .next) σ
  | collect {σ : Store} (bytes : Nat) :
    Runs steady functions (.stmt (.collect bytes)) σ (.ended .next) σ
  | setField {σ σ₁ : Store} {tuple : Name} {index : Nat} {value : Expr} {result : Value}
      {address : Nat} (hv : Runs steady functions (.expr value) σ (.value result) σ₁)
      (htuple : σ₁.locals[tuple]? = some (.tuple address))
      (hindex : index < (σ₁.heap.fields address).length) :
    Runs steady functions (.stmt (.setField tuple index value)) σ (.ended .next)
      { σ₁ with heap := σ₁.heap.setIfInBounds address ((σ₁.heap.fields address).set index result) }
  | blockNil {σ : Store} : Runs steady functions (.block []) σ (.ended .next) σ
  | blockReturned {σ σ₁ : Store} {statement : Stmt} {statements : List Stmt} {value : Value}
      (hs : Runs steady functions (.stmt statement) σ (.ended (.returned value)) σ₁) :
    Runs steady functions (.block (statement :: statements)) σ (.ended (.returned value)) σ₁
  | blockNext {σ σ₁ σ₂ : Store} {statement : Stmt} {statements : List Stmt}
      {completion : Completion}
      (hs : Runs steady functions (.stmt statement) σ (.ended .next) σ₁)
      (hr : Runs steady functions (.block statements) σ₁ (.ended completion) σ₂) :
    Runs steady functions (.block (statement :: statements)) σ (.ended completion) σ₂
  | turnStop {σ σ₁ : Store} {condition : Expr} {body : List Stmt}
      (hc : Runs steady functions (.expr condition) σ (.value (.bool false)) σ₁) :
    Runs steady functions (.turn condition body) σ (.ended .next) σ₁
  | turnReturned {σ σ₁ σ₂ : Store} {condition : Expr} {body : List Stmt} {value : Value}
      (hc : Runs steady functions (.expr condition) σ (.value (.bool true)) σ₁)
      (hs : Runs steady functions (.block body) σ₁ (.ended (.returned value)) σ₂) :
    Runs steady functions (.turn condition body) σ (.ended (.returned value)) σ₂
  | turnNext {σ σ₁ σ₂ σ₃ : Store} {condition : Expr} {body : List Stmt} {completion : Completion}
      (hc : Runs steady functions (.expr condition) σ (.value (.bool true)) σ₁)
      (hs : Runs steady functions (.block body) σ₁ (.ended .next) σ₂)
      (ht : Runs steady functions (.turn condition body) σ₂ (.ended completion) σ₃) :
    Runs steady functions (.turn condition body) σ (.ended completion) σ₃

end Interpreter

open Interpreter

/-- Whether the program has a run that prints the given words. -/
def Program.Prints (steady : Bool) (program : Program) (output : List Word) : Prop :=
  ∃ completion σ, Runs steady (functionTable program) (.block program.statements) {}
    (.ended completion) σ ∧ σ.output.toList = output

end TupleLang
