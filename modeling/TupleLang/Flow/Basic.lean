import Std.Data.ExtTreeMap
import Std.Data.ExtTreeSet
import TupleLang.Name
import TupleLang.Operator
import TupleLang.Program.Basic
import TupleLang.Ty
import TupleLang.Word

/-!
# Control-flow programs

In a control-flow program every function is a list of labelled blocks.  The statements of a block
run in order, all operands are atoms, and the last statement, and no other, passes control on:
to a block of the same function, back to the caller, or to another function in place of this one.
The first block of a function is where a call starts.

Those rules are not part of the types; `Flow.Function.labels` is what they speak about, and
`Flow.Stmt.isTerminator` and `Flow.Stmt.successors` say how a statement passes control on.
-/

namespace TupleLang.Flow

/-- The operands of a control-flow program. -/
inductive Atom where
  | var (name : Name)
  | const (value : Const)
  deriving DecidableEq

/-- What can be assigned to a variable. -/
inductive Operation where
  | atom (operand : Atom)
  | primitive (operator : Operator) (operands : List Atom)
  | call (target : Atom) (arguments : List Atom)
  /-- A new tuple of the given type, in room that is known to be there. -/
  | allocate (bytes : Nat) (ty : Ty)
  /-- The current value of a global of the run-time system. -/
  | global (name : Name)
  deriving DecidableEq

/-- The statements of a block. -/
inductive Stmt where
  | assign (target : Name) (value : Operation)
  | print (value : Atom)
  | collect (bytes : Nat)
  | setField (tuple : Name) (index : Nat) (value : Atom)
  /-- Continues at a label. -/
  | goto (label : Name)
  /-- Continues at one of two labels, as a comparison decides. -/
  | branch (operator : Operator) (lhs rhs : Atom) (positive negative : Name)
  | ret (value : Atom)
  /-- Returns the result of a call. -/
  | tailCall (target : Atom) (arguments : List Atom)
  deriving DecidableEq

namespace Stmt

/-- Whether the statement passes control on. -/
def isTerminator : Stmt → Bool
  | goto _ | branch _ _ _ _ _ | ret _ | tailCall _ _ => true
  | assign _ _ | print _ | collect _ | setField _ _ _ => false

/-- The labels at which control may continue. -/
def successors : Stmt → List Name
  | goto label => [label]
  | branch _ _ _ positive negative => [positive, negative]
  | _ => []

end Stmt

/-- A labelled sequence of statements. -/
structure Block where
  /-- The label under which the block is reached. -/
  label : Name
  /-- The statements in order. -/
  statements : List Stmt
  deriving DecidableEq

/-- A function. -/
structure Function where
  /-- The name of the function. -/
  name : Name
  /-- The names of the parameters. -/
  parameters : List Name
  /-- The blocks in order, the one where a call starts first. -/
  blocks : List Block
  /-- The types of the variables. -/
  variableTypes : Std.ExtTreeMap Name Ty := ∅

/-- The labels of the blocks of a function. -/
def Function.labels (function : Function) : List Name :=
  function.blocks.map Block.label

/-- A program. -/
structure Program where
  /-- The functions in order. -/
  functions : List Function
  /-- The names that stand for functions rather than variables. -/
  functionNames : Std.ExtTreeSet Name

end TupleLang.Flow
