import TupleLang.Name
import TupleLang.Operator
import TupleLang.Word

/-!
# Values

The values of a running program are integers, truth values, tuples and functions.  A tuple is known
by its place in the heap, so two values are the same tuple exactly when they are equal, and a change
of a field is seen wherever the tuple is.

`Value.primitive` applies an operator to values.  The operators `and` and `or` do not look at the
right operand when the left one decides.
-/

namespace TupleLang

/-- The values of a running program. -/
inductive Value where
  | int (value : Word)
  | bool (value : Bool)
  /-- The tuple at a place in the heap. -/
  | tuple (address : Nat)
  | function (name : Name)
  deriving DecidableEq

/-- The tuples that were made so far, each with its fields. -/
abbrev Heap := Array (List Value)

/-- The fields of a tuple. -/
def Heap.fields (heap : Heap) (address : Nat) : List Value :=
  heap.getD address []

/-- Why a program came to no good end. -/
inductive EvalError where
  | unboundVariable (name : Name)
  /-- An operation does not take the operands that are shown. -/
  | invalidOperand (operation shown : String)
  /-- There is no such field in the tuple that is shown. -/
  | indexOutOfBounds (index : Word) (shown : String)
  /-- The budget was used up. -/
  | outOfFuel (budget : Nat)
  deriving DecidableEq

/-- The error in words. -/
def EvalError.message : EvalError → String
  | unboundVariable name => "`" ++ name ++ "` is not bound"
  | invalidOperand operation shown =>
    "`" ++ operation ++ "` cannot be applied to `" ++ shown ++ "`"
  | indexOutOfBounds index shown =>
    "index " ++ index.text ++ " is out of bounds for `" ++ shown ++ "`"
  | outOfFuel budget => "the program did not finish within " ++ toString budget ++ " steps"

namespace Value

/-- The word that is printed for a value. -/
def word? : Value → Option Word
  | int value => some value
  | bool value => some (Word.ofBool value)
  | tuple _ | function _ => none

/-- The text of a value whose tuples are nested at most `depth` deep. -/
def textWithin (heap : Heap) : (depth : Nat) → Value → String
  | _, int value => value.text
  | _, bool value => if value then "true" else "false"
  | _, function name => "<function " ++ name ++ ">"
  | 0, tuple _ => "..."
  | depth + 1, tuple address =>
    "(" ++ ", ".intercalate ((heap.fields address).map (textWithin heap depth)) ++ ")"

/-- The text of a value.  Tuples that do not contain themselves are nested no deeper than there are
tuples. -/
def text (heap : Heap) (value : Value) : String :=
  value.textWithin heap heap.size

/-- The texts of values, separated by commas. -/
def textAll (heap : Heap) (values : List Value) : String :=
  ", ".intercalate (values.map (text heap))

/-- The truth value that a condition gives. -/
def asCondition (heap : Heap) : Value → Except EvalError Bool
  | bool value => .ok value
  | value => .error (.invalidOperand "condition" (value.text heap))

/-- The field of a tuple with the given index. -/
def field (heap : Heap) (address : Nat) (index : Word) : Except EvalError Value :=
  let fields := heap.fields address
  match index.toCount?.bind (fields[·]?) with
  | some value => .ok value
  | none => .error (.indexOutOfBounds index ("(" ++ textAll heap fields ++ ")"))

/-- The result of an operator applied to values. -/
def primitive (heap : Heap) : Operator → List Value → Except EvalError Value
  | .add, [int a, int b] => .ok (int (a + b))
  | .sub, [int a, int b] => .ok (int (a - b))
  | .mult, [int a, int b] => .ok (int (a * b))
  | .neg, [int a] => .ok (int (-a))
  | .not, [bool a] => .ok (bool !a)
  | .and, [lhs, rhs] => do
    if ← lhs.asCondition heap then return bool (← rhs.asCondition heap) else return bool false
  | .or, [lhs, rhs] => do
    if ← lhs.asCondition heap then return bool true else return bool (← rhs.asCondition heap)
  | .eq, [a, b] => .ok (bool (decide (a = b)))
  | .ne, [a, b] => .ok (bool (decide (a ≠ b)))
  | .lt, [int a, int b] => .ok (bool (decide (a < b)))
  | .lte, [int a, int b] => .ok (bool (decide (a ≤ b)))
  | .gt, [int a, int b] => .ok (bool (decide (b < a)))
  | .gte, [int a, int b] => .ok (bool (decide (b ≤ a)))
  | .subscript, [tuple address, int index] => field heap address index
  | operator, values => .error (.invalidOperand operator.name (textAll heap values))

end Value

end TupleLang
