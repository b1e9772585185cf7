/-!
# Primitive operators

The operators that programs apply to values.  `Operator.arity` is the number of operands each one
takes; a program may still apply an operator to any number of operands, and it is for the later
stages to refuse that.
-/

namespace TupleLang

/-- The primitive operators of the language. -/
inductive Operator where
  | add
  | sub
  | mult
  | neg
  | not
  | and
  | or
  | eq
  | ne
  | lt
  | lte
  | gt
  | gte
  | subscript
  deriving DecidableEq

namespace Operator

/-- The operators in the order of their declaration. -/
def all : List Operator :=
  [add, sub, mult, neg, not, and, or, eq, ne, lt, lte, gt, gte, subscript]

/-- The name under which programs apply the operator. -/
def name : Operator → String
  | add => "add"
  | sub => "sub"
  | mult => "mult"
  | neg => "neg"
  | not => "not"
  | and => "and"
  | or => "or"
  | eq => "eq"
  | ne => "ne"
  | lt => "lt"
  | lte => "lte"
  | gt => "gt"
  | gte => "gte"
  | subscript => "subscript"

/-- The operator with the given name. -/
def ofName? (name : String) : Option Operator :=
  all.find? (·.name == name)

/-- The name of the operator in outlines. -/
def outline (operator : Operator) : String :=
  match operator with
  | add => "Add"
  | sub => "Sub"
  | mult => "Mult"
  | neg => "Neg"
  | not => "Not"
  | and => "And"
  | or => "Or"
  | eq => "Eq"
  | ne => "Ne"
  | lt => "Lt"
  | lte => "Lte"
  | gt => "Gt"
  | gte => "Gte"
  | subscript => "Subscript"

/-- How many operands the operator takes. -/
def arity : Operator → Nat
  | neg | not => 1
  | _ => 2

/-- Whether the operator compares two values. -/
def isComparison : Operator → Bool
  | eq | ne | lt | lte | gt | gte => true
  | _ => false

/-- Whether the operator may leave its right operand unevaluated. -/
def isShortCircuiting : Operator → Bool
  | and | or => true
  | _ => false

end Operator

end TupleLang
