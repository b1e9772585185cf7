import TupleLang.Flow.Interpreter
import TupleLang.Proofs.Evaluation

/-!
# Runs of control-flow programs

`Flow.Runs` is the running of a control-flow program without a limit on its depth, as a relation.
It is to `Flow.Program.interpret` what `Interpreter.Runs` is to `Program.interpret`.

Code runs until its function returns, so the value that comes with the final store is that of the
whole function.
-/

namespace TupleLang.Flow

open Interpreter (Store Locals bindArguments globalValue)

/-- The value of an atom, if it has one. -/
def Atom.value? (context : Context) (locals : Locals) : Atom → Option Value
  | .const (.int value) => some (.int value)
  | .const (.bool value) => some (.bool value)
  | .var name =>
    match locals[name]? with
    | some value => some value
    | none => if context.functionNames.contains name then some (.function name) else none

/-- The code under a label. -/
def Function.code? (function : Function) (label : Name) : Option (List Stmt) :=
  (function.blocks.find? (·.label == label)).map Block.statements

/-- The code that a call starts with. -/
def Function.start (function : Function) : List Stmt :=
  (function.blocks.head?.map Block.statements).getD []

/-- What there is to run. -/
inductive Task where
  | operation (operation : Operation)
  /-- Code of a function, up to its return. -/
  | code (function : Function) (statements : List Stmt)

/-- The running of a task from one store to another; code gives what its function returns. -/
inductive Runs (context : Context) : Task → Store → Value → Store → Prop where
  | atom {σ : Store} {atom : Atom} {value : Value} (h : atom.value? context σ.locals = some value) :
    Runs context (.operation (.atom atom)) σ value σ
  | andTrue {σ : Store} {lhs rhs : Atom} {right : Bool}
      (hl : lhs.value? context σ.locals = some (.bool true))
      (hr : rhs.value? context σ.locals = some (.bool right)) :
    Runs context (.operation (.primitive .and [lhs, rhs])) σ (.bool right) σ
  | andFalse {σ : Store} {lhs rhs : Atom}
      (hl : lhs.value? context σ.locals = some (.bool false)) :
    Runs context (.operation (.primitive .and [lhs, rhs])) σ (.bool false) σ
  | orTrue {σ : Store} {lhs rhs : Atom} (hl : lhs.value? context σ.locals = some (.bool true)) :
    Runs context (.operation (.primitive .or [lhs, rhs])) σ (.bool true) σ
  | orFalse {σ : Store} {lhs rhs : Atom} {right : Bool}
      (hl : lhs.value? context σ.locals = some (.bool false))
      (hr : rhs.value? context σ.locals = some (.bool right)) :
    Runs context (.operation (.primitive .or [lhs, rhs])) σ (.bool right) σ
  | primitive {σ : Store} {operator : Operator} {operands : List Atom} {values : List Value}
      {value : Value} (hstrict : operator.isShortCircuiting = false)
      (hs : operands.map (·.value? context σ.locals) = values.map some)
      (hvalue : Value.primitive σ.heap operator values = .ok value) :
    Runs context (.operation (.primitive operator operands)) σ value σ
  | call {σ σ₁ : Store} {target : Atom} {arguments : List Atom} {name : Name}
      {values : List Value} {function : Function} {value : Value}
      (ht : target.value? context σ.locals = some (.function name))
      (hs : arguments.map (·.value? context σ.locals) = values.map some)
      (hfunction : context.functions[name]? = some function)
      (hbody : Runs context (.code function function.start)
        { σ with locals := bindArguments function.parameters values } value σ₁) :
    Runs context (.operation (.call target arguments)) σ value
      { σ₁ with locals := σ.locals }
  | allocate {σ : Store} (bytes : Nat) (fields : List Ty) :
    Runs context (.operation (.allocate bytes (.tuple fields))) σ (.tuple σ.heap.size)
      { σ with heap := σ.heap.push (fields.map fun _ => .int 0) }
  | global {σ : Store} (name : Name) :
    Runs context (.operation (.global name)) σ (globalValue name) σ
  | assign {function : Function} {σ σ₁ σ₂ : Store} {target : Name} {operation : Operation}
      {rest : List Stmt} {value result : Value}
      (hv : Runs context (.operation operation) σ value σ₁)
      (hrest : Runs context (.code function rest)
        { σ₁ with locals := σ₁.locals.insert target value } result σ₂) :
    Runs context (.code function (.assign target operation :: rest)) σ result σ₂
  | print {function : Function} {σ σ₁ : Store} {atom : Atom} {value result : Value} {word : Word}
      {rest : List Stmt} (hv : atom.value? context σ.locals = some value)
      (hword : value.word? = some word)
      (hrest : Runs context (.code function rest)
        { σ with output := σ.output.push word } result σ₁) :
    Runs context (.code function (.print atom :: rest)) σ result σ₁
  | collect {function : Function} {σ σ₁ : Store} {bytes : Nat} {rest : List Stmt} {result : Value}
      (hrest : Runs context (.code function rest) σ result σ₁) :
    Runs context (.code function (.collect bytes :: rest)) σ result σ₁
  | setField {function : Function} {σ σ₁ : Store} {tuple : Name} {index : Nat} {atom : Atom}
      {value result : Value} {address : Nat} {rest : List Stmt}
      (hv : atom.value? context σ.locals = some value)
      (htuple : σ.locals[tuple]? = some (.tuple address))
      (hindex : index < (σ.heap.fields address).length)
      (hrest : Runs context (.code function rest) { σ with
        heap := σ.heap.setIfInBounds address ((σ.heap.fields address).set index value) }
      result σ₁) :
    Runs context (.code function (.setField tuple index atom :: rest)) σ result σ₁
  | goto {function : Function} {σ σ₁ : Store} {label : Name} {code rest : List Stmt}
      {result : Value} (hcode : function.code? label = some code)
      (hrest : Runs context (.code function code) σ result σ₁) :
    Runs context (.code function (.goto label :: rest)) σ result σ₁
  | branch {function : Function} {σ σ₁ : Store} {operator : Operator} {lhs rhs : Atom}
      {positive negative : Name} {test : Bool} {code rest : List Stmt} {result : Value}
      (htest : Runs context (.operation (.primitive operator [lhs, rhs])) σ (.bool test) σ)
      (hcode : function.code? (if test then positive else negative) = some code)
      (hrest : Runs context (.code function code) σ result σ₁) :
    Runs context (.code function (.branch operator lhs rhs positive negative :: rest)) σ
      result σ₁
  | ret {function : Function} {σ : Store} {atom : Atom} {value : Value} {rest : List Stmt}
      (hv : atom.value? context σ.locals = some value) :
    Runs context (.code function (.ret atom :: rest)) σ value σ
  | tailCall {function : Function} {σ σ₁ : Store} {target : Atom} {arguments : List Atom}
      {value : Value} {rest : List Stmt}
      (hv : Runs context (.operation (.call target arguments)) σ value σ₁) :
    Runs context (.code function (.tailCall target arguments :: rest)) σ value σ₁

/-- What stays the same while the program runs.  Nothing that has no limit looks at the limit. -/
def Program.context (program : Program) : Context where
  functions := program.functions.foldl (fun table function => table.insert function.name function) ∅
  functionNames := program.functionNames
  limit := 0

/-- Whether the program has a run from its entry point that prints the given words. -/
def Program.Prints (program : Program) (output : List Word) : Prop :=
  ∃ entry value σ, program.context.functions[Name.entryPoint]? = some entry ∧
    Runs program.context (.code entry entry.start) {} value σ ∧ σ.output.toList = output

end TupleLang.Flow
