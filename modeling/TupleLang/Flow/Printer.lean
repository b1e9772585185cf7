import TupleLang.Flow.Basic
import TupleLang.Program.Printer
import TupleLang.Text.Styled

/-!
# Printing control-flow programs

A function is printed as its blocks between braces, each block under its label; an empty line
stands between two functions.
-/

namespace TupleLang.Flow

open Styled (raw painted join)

/-- An atom. -/
def Atom.styled : Atom → Styled
  | var name => raw name
  | const value => value.styled

/-- Atoms between parentheses. -/
def argumentsStyled (arguments : List Atom) : Styled :=
  raw "(" ++ join ", " (arguments.map Atom.styled) ++ raw ")"

/-- What is assigned to a variable. -/
def Operation.styled : Operation → Styled
  | atom operand => operand.styled
  | primitive operator operands => painted .cyan operator.name ++ argumentsStyled operands
  | call target arguments =>
    painted .cyan "call" ++ raw " " ++ target.styled ++ argumentsStyled arguments
  | allocate bytes ty =>
    painted .cyan "allocate" ++ raw ("(" ++ toString bytes ++ ", ") ++ painted .yellow ty.text ++
      raw ")"
  | global name => painted .blue ("global(" ++ name ++ ")")

/-- A statement. -/
def Stmt.styled : Stmt → Styled
  | assign target value =>
    raw (target ++ " ") ++ painted .white "=" ++ raw " " ++ value.styled
  | print value => painted .cyan "print" ++ raw "(" ++ value.styled ++ raw ")"
  | collect bytes => painted .cyan "collect" ++ raw ("(" ++ toString bytes ++ ")")
  | setField tuple index value =>
    painted .cyan "tuple_set" ++ raw ("(" ++ tuple ++ ", " ++ toString index ++ ", ") ++
      value.styled ++ raw ")"
  | goto label => painted .magenta "goto" ++ raw " " ++ painted .brightRed label
  | branch operator lhs rhs positive negative =>
    painted .magenta "if" ++ raw " " ++ painted .cyan operator.name ++ raw "(" ++ lhs.styled ++
      raw ", " ++ rhs.styled ++ raw ") " ++ painted .magenta "goto" ++ raw " " ++
      painted .brightRed positive ++ raw " " ++ painted .magenta "else goto" ++ raw " " ++
      painted .brightRed negative
  | ret value => painted .magenta "return" ++ raw " " ++ value.styled
  | tailCall target arguments =>
    painted .magenta "tail call" ++ raw " " ++ target.styled ++ argumentsStyled arguments

/-- A block: its label, then its statements, indented. -/
def Block.styled (block : Block) : Styled :=
  painted .brightRed (block.label ++ ":") ++ raw "\n" ++
    block.statements.flatMap fun statement => raw "    " ++ statement.styled ++ raw "\n"

/-- A function. -/
def Function.styled (function : Function) : Styled :=
  painted .magenta "fn" ++ raw " " ++ painted .blue function.name ++ painted .white "(" ++
    raw (", ".intercalate function.parameters) ++ painted .white ") \x7b" ++ raw "\n" ++
    function.blocks.flatMap Block.styled ++ painted .white "\x7d" ++ raw "\n"

/-- A whole program. -/
def Program.styled (program : Program) : Styled :=
  join "\n" (program.functions.map Function.styled)

/-- The text of a program. -/
def Program.text (program : Program) : String :=
  program.styled.plain

end TupleLang.Flow
