import TupleLang.Program.Basic
import TupleLang.Text.Styled

/-!
# Printing programs

Statements are printed one to a line, each level of nesting four blanks further to the right; an
empty block is shown as `pass`, and both branches of a conditional are always shown.

The statements of an `Expr.begin` stand on the line of the expression: they are written without
line breaks, each one followed by a blank instead.
-/

namespace TupleLang

open Styled (raw painted join)

/-- The text of a constant. -/
def Const.text : Const → String
  | int value => value.text
  | bool value => if value then "true" else "false"

/-- A constant with its paint. -/
def Const.styled (value : Const) : Styled :=
  painted .magenta value.text

/-- The blanks at the left of a statement at the given depth. -/
def indentation (depth : Nat) : Styled :=
  raw (String.join (List.replicate depth "    "))

/-- The head line of a function definition. -/
def signatureStyled (name : Name) (parameters : List (Name × Ty)) (output : Ty) : Styled :=
  painted .magenta "def" ++ raw " " ++ painted .blue name ++ raw "(" ++
    join ", " (parameters.map fun (parameter, ty) =>
      raw (parameter ++ ": ") ++ painted .yellow ty.text) ++
    raw ") -> " ++ painted .yellow output.text ++ raw ":"

mutual

/-- An expression. -/
def Expr.styled : Expr → Styled
  | .var name => raw name
  | .const value => value.styled
  | .primitive operator operands =>
    painted .cyan operator.name ++ raw "(" ++ join ", " (Expr.styledList operands) ++ raw ")"
  | .call target arguments =>
    target.styled ++ raw "(" ++ join ", " (Expr.styledList arguments) ++ raw ")"
  | .tuple [field] => raw "(" ++ field.styled ++ raw ",)"
  | .tuple fields => raw "(" ++ join ", " (Expr.styledList fields) ++ raw ")"
  | .begin statements value =>
    painted .magenta "begin \x7b" ++ Stmt.styledInline statements ++ raw " " ++ value.styled ++
      raw " " ++ painted .magenta "\x7d"
  | .global name => painted .blue ("global(" ++ name ++ ")")
  | .allocate bytes ty =>
    painted .cyan "allocate" ++ raw ("(" ++ toString bytes ++ ", ") ++ painted .yellow ty.text ++
      raw ")"

/-- The members of a list of expressions. -/
def Expr.styledList : List Expr → List Styled
  | [] => []
  | expression :: expressions => expression.styled :: Expr.styledList expressions

/-- A statement at a depth of nesting; `separator` ends each of its lines. -/
def Stmt.styledAt (depth : Nat) (separator : String) : Stmt → Styled
  | .assign target value =>
    indentation depth ++ raw (target ++ " ") ++ painted .white "=" ++ raw " " ++ value.styled ++
      raw separator
  | .print value =>
    indentation depth ++ painted .cyan "print" ++ raw "(" ++ value.styled ++
      raw (")" ++ separator)
  | .ifElse condition positive negative =>
    indentation depth ++ painted .magenta "if" ++ raw " " ++ condition.styled ++
      raw (":" ++ separator) ++ Stmt.styledBlock depth separator positive ++
      indentation depth ++ painted .magenta "else" ++ raw (":" ++ separator) ++
      Stmt.styledBlock depth separator negative
  | .whileDo condition body =>
    indentation depth ++ painted .magenta "while" ++ raw " " ++ condition.styled ++
      raw (":" ++ separator) ++ Stmt.styledBlock depth separator body
  | .ret value =>
    indentation depth ++ painted .magenta "return" ++ raw " " ++ value.styled ++ raw separator
  | .define name parameters output body =>
    indentation depth ++ signatureStyled name parameters output ++ raw separator ++
      Stmt.styledBlock depth separator body
  | .collect bytes =>
    indentation depth ++ painted .cyan "collect" ++ raw ("(" ++ toString bytes ++ ")" ++ separator)
  | .setField tuple index value =>
    indentation depth ++ painted .cyan "tuple_set" ++
      raw ("(" ++ tuple ++ ", " ++ toString index ++ ", ") ++ value.styled ++
      raw (")" ++ separator)

/-- The block under a line at the given depth. -/
def Stmt.styledBlock (depth : Nat) (separator : String) : List Stmt → Styled
  | [] => indentation depth ++ raw "    " ++ painted .magenta "pass" ++ raw separator
  | statement :: statements =>
    statement.styledAt (depth + 1) separator ++ Stmt.styledRest (depth + 1) separator statements

/-- Statements one after the other at the given depth. -/
def Stmt.styledRest (depth : Nat) (separator : String) : List Stmt → Styled
  | [] => []
  | statement :: statements =>
    statement.styledAt depth separator ++ Stmt.styledRest depth separator statements

/-- The statements of an `Expr.begin`, each one after a blank. -/
def Stmt.styledInline : List Stmt → Styled
  | [] => []
  | statement :: statements =>
    raw " " ++ statement.styledAt 0 " " ++ Stmt.styledInline statements

end

/-- The text of an expression. -/
def Expr.text (expression : Expr) : String :=
  expression.styled.plain

/-- A statement on lines of its own. -/
def Stmt.styled (statement : Stmt) : Styled :=
  statement.styledAt 0 "\n"

/-- The text of a statement, which ends with a line break. -/
def Stmt.text (statement : Stmt) : String :=
  statement.styled.plain

/-- A whole program. -/
def Program.styled (program : Program) : Styled :=
  program.statements.flatMap Stmt.styled

/-- The text of a program. -/
def Program.text (program : Program) : String :=
  program.styled.plain

end TupleLang
