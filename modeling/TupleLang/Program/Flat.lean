import TupleLang.Error
import TupleLang.Program.Basic

/-!
# Flat programs

In a flat program the operands of every operator, call and tuple are atoms, and every condition is
a *test*: an atom, or an operator of truth values over atoms.  `Expr.isFlat` is that form for one
expression.

`Program.flatten` brings a program into it.  The values computed on the way are bound to new
variables, in the order in which they are evaluated, so an expression becomes a `Flattened` one:
statements to run first, and a value.  Three places need care.

* A right operand of `and` or `or` that needs statements of its own may only run when the left
  operand does not decide the result, so the operator becomes a conditional that assigns the
  result to a variable.
* The statements of the condition of a loop must run before every test, so they stay with it, in
  an `Expr.begin`.
* A returned call stays in its place, since it can still become a jump.
-/

namespace TupleLang

/-- Whether the operands of the expression are atoms. -/
def Expr.isFlat : Expr → Bool
  | .var _ | .const _ | .global _ | .allocate _ _ => true
  | .primitive _ operands | .tuple operands => operands.all Expr.isAtomic
  | .call target arguments => target.isAtomic && arguments.all Expr.isAtomic
  | .begin statements value => statements.isEmpty && value.isFlat

/-- Whether a flat expression can decide a branch. -/
def Expr.isTest : Expr → Bool
  | .var _ | .const _ => true
  | .primitive operator _ =>
    operator.isComparison || operator.isShortCircuiting || operator == .not
  | _ => false

/-- Whether the expression is a call. -/
def Expr.isCall : Expr → Bool
  | .call _ _ => true
  | _ => false

/-- A flat expression, with the statements that must run before it. -/
structure Flattened where
  /-- The statements to run first. -/
  bindings : List Stmt
  /-- The value after that. -/
  value : Expr

namespace Flattened

/-- Binds the value to a new variable. -/
def bind (flattened : Flattened) : Lowering Flattened := do
  let temporary ← Lowering.fresh "tmp"
  return ⟨flattened.bindings ++ [.assign temporary flattened.value], .var temporary⟩

/-- Binds the value to a new variable if an atom is wanted and the value is none. -/
def settle (atomic : Bool) (flattened : Flattened) : Lowering Flattened :=
  if atomic && !flattened.value.isAtomic then flattened.bind else return flattened

/-- Binds the value to a new variable unless it can decide a branch. -/
def asTest (flattened : Flattened) : Lowering Flattened :=
  if flattened.value.isTest then return flattened else flattened.bind

/-- The condition of a loop: the bindings stay with it, if there are any. -/
def asLoopCondition (flattened : Flattened) : Expr :=
  if flattened.bindings.isEmpty then flattened.value
  else .begin flattened.bindings flattened.value

/-- The operator `and` or `or`, from the operands: `left` and `right` flatten them.  The operator
stays in its place if the right operand is an atom. -/
def shortCircuit (operator : Operator) (rhs : Expr) (left right : Lowering Flattened) :
    Lowering Flattened := do
  let lhs ← left
  if rhs.isAtomic then
    return ⟨lhs.bindings, .primitive operator [lhs.value, rhs]⟩
  else
    let result ← Lowering.fresh "tmp"
    let rhs ← right
    let undecided := rhs.bindings ++ [.assign result rhs.value]
    let decided := [Stmt.assign result (.bool (operator == .or))]
    let conditional :=
      if operator = .and then Stmt.ifElse lhs.value undecided decided
      else Stmt.ifElse lhs.value decided undecided
    return ⟨lhs.bindings ++ [conditional], .var result⟩

end Flattened

mutual

/-- Flattens an expression; the value is an atom if one is wanted. -/
def Expr.flatten (atomic : Bool) : Expr → Lowering Flattened
  | .var name => return ⟨[], .var name⟩
  | .const value => return ⟨[], .const value⟩
  | .primitive .and [lhs, rhs] => do
    let flattened ← Flattened.shortCircuit .and rhs (lhs.flatten true) (rhs.flatten false)
    flattened.settle atomic
  | .primitive .or [lhs, rhs] => do
    let flattened ← Flattened.shortCircuit .or rhs (lhs.flatten true) (rhs.flatten false)
    flattened.settle atomic
  | .primitive operator operands => do
    if operator.isShortCircuiting then
      Lowering.unsupported .flatten (.expression (.primitive operator operands))
    let (bindings, atoms) ← Expr.flattenAll operands
    Flattened.settle atomic ⟨bindings, .primitive operator atoms⟩
  | .call target arguments => do
    let target ← target.flatten true
    let (bindings, atoms) ← Expr.flattenAll arguments
    Flattened.settle atomic ⟨target.bindings ++ bindings, .call target.value atoms⟩
  | .tuple fields => do
    let (bindings, atoms) ← Expr.flattenAll fields
    Flattened.settle atomic ⟨bindings, .tuple atoms⟩
  | .begin statements value => do
    let statements ← Stmt.flattenBlock statements
    let value ← value.flatten atomic
    return ⟨statements ++ value.bindings, value.value⟩
  | .global name => Flattened.settle atomic ⟨[], .global name⟩
  | .allocate bytes ty => Flattened.settle atomic ⟨[], .allocate bytes ty⟩

/-- Flattens expressions to atoms, with the statements that must run before them. -/
def Expr.flattenAll : List Expr → Lowering (List Stmt × List Expr)
  | [] => return ([], [])
  | expression :: expressions => do
    let first ← expression.flatten true
    let (bindings, atoms) ← Expr.flattenAll expressions
    return (first.bindings ++ bindings, first.value :: atoms)

/-- Flattens a statement. -/
def Stmt.flatten : Stmt → Lowering (List Stmt)
  | .assign target value => do
    let value ← value.flatten false
    return value.bindings ++ [.assign target value.value]
  | .print value => do
    let value ← value.flatten true
    return value.bindings ++ [.print value.value]
  | .ifElse condition positive negative => do
    let condition ← condition.flatten false
    let condition ← condition.asTest
    let positive ← Stmt.flattenBlock positive
    let negative ← Stmt.flattenBlock negative
    return condition.bindings ++ [.ifElse condition.value positive negative]
  | .whileDo condition body => do
    let condition ← condition.flatten false
    let condition ← condition.asTest
    let body ← Stmt.flattenBlock body
    return [.whileDo condition.asLoopCondition body]
  | .ret value => do
    let value ← value.flatten (!value.isCall)
    return value.bindings ++ [.ret value.value]
  | .define name parameters output body => do
    let body ← Stmt.flattenBlock body
    return [.define name parameters output body]
  | .collect bytes => return [.collect bytes]
  | .setField tuple index value => do
    let value ← value.flatten true
    return value.bindings ++ [.setField tuple index value.value]

/-- Flattens statements one after the other. -/
def Stmt.flattenBlock : List Stmt → Lowering (List Stmt)
  | [] => return []
  | statement :: statements => do
    let first ← statement.flatten
    let rest ← Stmt.flattenBlock statements
    return first ++ rest

end

/-- Flattens a program. -/
def Program.flatten (program : Program) : Lowering Program := do
  return ⟨← Stmt.flattenBlock program.statements⟩

end TupleLang
