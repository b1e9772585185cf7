import TupleLang.Config
import TupleLang.Flow.Outline
import TupleLang.Program.Outline
import TupleLang.Program.Printer
import TupleLang.Text.Basic
import TupleLang.Text.Control

/-!
# Errors of the compiler

Only a typing fault (`TypeFault`) is a mistake in the program being compiled; it comes with the
`Site` where it was found.  Every other `CompileError` says that a stage was handed something
outside its input language, or that the configuration is no good.

The errors are causes; their wording is in `CompileError.message` alone.  A site is shown without
terminal control sequences and without blanks at its end, unless it is the name of a function.

A stage of the compiler either refuses its input or produces its output; on the way it may take
names from the supply of the compilation (`Lowering`).
-/

namespace TupleLang

/-- What can be wrong with the types of a program. -/
inductive TypeFault where
  | mismatch (expected actual : Ty)
  | operandCount (operator : Operator) (actual : Nat)
  | argumentCount (expected actual : Nat)
  | notAFunction (actual : Ty)
  | notATuple (actual : Ty)
  | notPrintable (actual : Ty)
  | nonConstantIndex
  | indexOutOfBounds (index : Word) (length : Nat)
  | tupleTooLarge (actual : Nat)
  | unboundVariable (name : Name)
  | assignToFunction (name : Name)
  | duplicateDefinition (name : Name)
  | reservedName (name : Name)
  | returnOutsideFunction
  | nestedFunction
  deriving DecidableEq

/-- What is wrong, in words. -/
def TypeFault.message : TypeFault → String
  | mismatch expected actual =>
    "expected `" ++ expected.text ++ "` but found `" ++ actual.text ++ "`"
  | operandCount operator actual =>
    "`" ++ operator.name ++ "` expects " ++ toString operator.arity ++
      " operand(s) but was given " ++ toString actual
  | argumentCount expected actual =>
    "function expects " ++ toString expected ++ " argument(s) but was given " ++ toString actual
  | notAFunction actual => "`" ++ actual.text ++ "` is not a function"
  | notATuple actual => "`" ++ actual.text ++ "` is not a tuple"
  | notPrintable actual => "cannot print a value of type `" ++ actual.text ++ "`"
  | nonConstantIndex => "tuple index must be a constant integer"
  | indexOutOfBounds index length =>
    "index " ++ index.text ++ " is out of bounds for a tuple of " ++ toString length ++ " field(s)"
  | tupleTooLarge actual =>
    "tuples may have at most " ++ toString Ty.maxFields ++ " fields but this one has " ++
      toString actual
  | unboundVariable name => "`" ++ name ++ "` is used before it is assigned"
  | assignToFunction name =>
    "`" ++ name ++ "` names a function and cannot be assigned to or shadowed"
  | duplicateDefinition name => "`" ++ name ++ "` is defined more than once"
  | reservedName name => "`" ++ name ++ "` is a reserved name"
  | returnOutsideFunction => "`return` is only allowed inside a function definition"
  | nestedFunction => "functions may only be defined at the top level"

/-- The part of a program in which a fault was found. -/
inductive Site where
  /-- The signature of a function, shown by its name. -/
  | signature (function : Name)
  | statement (node : Stmt)
  | expression (node : Expr)

/-- The site as it is shown to the user. -/
def Site.text : Site → String
  | signature function => function
  | statement node => Text.trimEnd (Text.visible node.text)
  | expression node => Text.trimEnd (Text.visible node.text)

/-- The stages that may refuse a construct. -/
inductive Stage where
  | flatten
  | exposeAllocation
  | explicateControl
  | validateFlow
  | selectInstructions
  | allocateRegisters
  deriving DecidableEq

/-- The name under which a stage reports. -/
def Stage.name : Stage → String
  | flatten => "flatten"
  | exposeAllocation => "expose allocation"
  | explicateControl => "explicate control"
  | validateFlow => "cir validation"
  | selectInstructions => "select instructions"
  | allocateRegisters => "register allocation"

/-- The constructs that a stage may refuse. -/
inductive Construct where
  | name (found : Name)
  | expression (found : Expr)
  | atom (found : Flow.Atom)
  | operation (found : Flow.Operation)
  | statement (found : Flow.Stmt)
  | statements (found : List Flow.Stmt)
  /-- A variable for which no home was found. -/
  | homeless (variableName : Name)

/-- The construct as a report shows it. -/
def Construct.outline : Construct → String
  | name found => Name.outline found
  | expression found => found.outline
  | atom found => found.outline
  | operation found => found.outline
  | statement found => found.outline
  | statements found => Outline.list (found.map Flow.Stmt.outline)
  | homeless variableName => Text.quoted ("variable `" ++ variableName ++ "` has no home")

/-- Why a program was not compiled. -/
inductive CompileError where
  /-- The program has a typing fault. -/
  | type (fault : TypeFault) (site : Site)
  /-- A stage was handed a construct that it does not take. -/
  | unsupported (stage : Stage) (construct : Construct)
  /-- A function jumps to a label that it does not have. -/
  | unboundLabel (function label : Name)
  /-- The configuration has a fault. -/
  | configuration (fault : Config.Fault)

/-- The error in words. -/
def CompileError.message : CompileError → String
  | type fault site => "type error: " ++ fault.message ++ " (in `" ++ site.text ++ "`)"
  | unsupported stage construct =>
    "internal error: " ++ stage.name ++ " received unsupported construct `" ++
      construct.outline ++ "`"
  | unboundLabel function label =>
    "internal error: function `" ++ function ++ "` jumps to unknown label `" ++ label ++ "`"
  | configuration fault => "invalid configuration: " ++ fault.message

/-- Whether the error is a mistake in the program being compiled. -/
def CompileError.isUserFacing : CompileError → Bool
  | type _ _ => true
  | _ => false

/-- A computation that may take new names and may refuse its input. -/
abbrev Lowering := StateT NameSupply (Except CompileError)

namespace Lowering

/-- Takes the next name for `base`. -/
def fresh (base : String) : Lowering Name :=
  modifyGet (NameSupply.fresh base)

/-- Refuses a construct. -/
def unsupported {α : Type} (stage : Stage) (construct : Construct) : Lowering α :=
  throw (.unsupported stage construct)

end Lowering

end TupleLang
