import TupleLang.Name
import TupleLang.Operator
import TupleLang.Ty
import TupleLang.Word

/-!
# Programs

A program is a list of statements; the function definitions among them are its functions, and the
other statements are the body of the entry point.

The same trees serve every stage that keeps the shape of the source.  The forms `Expr.global`,
`Expr.allocate`, `Stmt.collect` and `Stmt.setField` are what a tuple literal becomes once its
allocation is explicit, and `Expr.begin` runs statements before it takes a value.
-/

namespace TupleLang

/-- The constants of the language. -/
inductive Const where
  | int (value : Word)
  | bool (value : Bool)
  deriving DecidableEq

mutual

/-- The expressions of the language. -/
inductive Expr where
  | var (name : Name)
  | const (value : Const)
  /-- An operator applied to any number of operands. -/
  | primitive (operator : Operator) (operands : List Expr)
  | call (target : Expr) (arguments : List Expr)
  /-- A new tuple. -/
  | tuple (fields : List Expr)
  /-- Runs the statements, then takes the value. -/
  | begin (statements : List Stmt) (value : Expr)
  /-- The current value of a global of the run-time system. -/
  | global (name : Name)
  /-- A new tuple of the given type whose fields are still to be set, in room that is known to be
  there. -/
  | allocate (bytes : Nat) (ty : Ty)

/-- The statements of the language. -/
inductive Stmt where
  | assign (target : Name) (value : Expr)
  | print (value : Expr)
  | ifElse (condition : Expr) (positive negative : List Stmt)
  | whileDo (condition : Expr) (body : List Stmt)
  | ret (value : Expr)
  /-- The definition of a function. -/
  | define (name : Name) (parameters : List (Name × Ty)) (output : Ty) (body : List Stmt)
  /-- Makes room for at least so many bytes in the heap. -/
  | collect (bytes : Nat)
  /-- Sets a field of the tuple that a variable holds. -/
  | setField (tuple : Name) (index : Nat) (value : Expr)

end

/-- The integer constant as an expression. -/
def Expr.int (value : Word) : Expr :=
  .const (.int value)

/-- The truth value as an expression. -/
def Expr.bool (value : Bool) : Expr :=
  .const (.bool value)

/-- Whether the expression is an atom: a variable or a constant. -/
def Expr.isAtomic : Expr → Bool
  | .var _ | .const _ => true
  | _ => false

/-- The definition of a function. -/
structure Function where
  /-- The name of the function. -/
  name : Name
  /-- The parameters with their types. -/
  parameters : List (Name × Ty)
  /-- The type of the result. -/
  output : Ty
  /-- The statements that a call runs. -/
  body : List Stmt

/-- The type of the function as a value. -/
def Function.ty (function : Function) : Ty :=
  .function (function.parameters.map Prod.snd) function.output

/-- The function that a statement defines, if it is a definition. -/
def Stmt.function? : Stmt → Option Function
  | .define name parameters output body => some ⟨name, parameters, output, body⟩
  | _ => none

/-- A program, made of statements and function definitions in any order. -/
structure Program where
  /-- The statements in order. -/
  statements : List Stmt

/-- The functions that the program defines at its top level, in order. -/
def Program.functions (program : Program) : List Function :=
  program.statements.filterMap Stmt.function?

end TupleLang
