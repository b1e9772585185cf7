import TupleLang.Program.Basic
import TupleLang.Text.Basic
import TupleLang.Text.Quoted

/-!
# Outlines of programs

The outline of an expression or a statement, by which a stage reports a construct that it does not
take.  A name is outlined by its quoted text.
-/

namespace TupleLang

/-- The outline of a name. -/
def Name.outline (name : Name) : String :=
  Outline.tagged "InternedSymbol" [Text.quoted name]

/-- The outline of a truth value. -/
def boolOutline (value : Bool) : String :=
  if value then "true" else "false"

/-- The outline of a constant. -/
def Const.outline : Const → String
  | int value => Outline.tagged "Int" [value.text]
  | bool value => Outline.tagged "Bool" [boolOutline value]

mutual

/-- The outline of an expression. -/
def Expr.outline : Expr → String
  | .var name => Outline.tagged "Variable" [name.outline]
  | .const value => Outline.tagged "Constant" [value.outline]
  | .primitive operator operands =>
    Outline.record "Primitive"
      [("operator", operator.outline), ("operands", Outline.list (Expr.outlines operands))]
  | .call target arguments =>
    Outline.record "Call"
      [("target", target.outline), ("arguments", Outline.list (Expr.outlines arguments))]
  | .tuple fields => Outline.tagged "Tuple" [Outline.list (Expr.outlines fields)]
  | .begin statements value =>
    Outline.record "Begin"
      [("statements", Outline.list (Stmt.outlines statements)), ("value", value.outline)]
  | .global name => Outline.tagged "GlobalValue" [name.outline]
  | .allocate bytes ty =>
    Outline.record "Allocate" [("bytes", toString bytes), ("ty", ty.outline)]

/-- The outlines of the members of a list of expressions. -/
def Expr.outlines : List Expr → List String
  | [] => []
  | expression :: expressions => expression.outline :: Expr.outlines expressions

/-- The outline of a statement. -/
def Stmt.outline : Stmt → String
  | .assign target value =>
    Outline.record "Assign" [("target", target.outline), ("value", value.outline)]
  | .print value => Outline.tagged "Print" [value.outline]
  | .ifElse condition positive negative =>
    Outline.record "If"
      [("condition", condition.outline), ("positive", Outline.list (Stmt.outlines positive)),
        ("negative", Outline.list (Stmt.outlines negative))]
  | .whileDo condition body =>
    Outline.record "While"
      [("condition", condition.outline), ("body", Outline.list (Stmt.outlines body))]
  | .ret value => Outline.tagged "Return" [value.outline]
  | .define name parameters output body =>
    Outline.tagged "FunctionDefinition"
      [Outline.record "FunctionDefinition"
        [("name", name.outline),
          ("parameters", Outline.list (parameters.map fun (parameter, ty) =>
            Outline.tuple [parameter.outline, ty.outline])),
          ("return_type", output.outline), ("body", Outline.list (Stmt.outlines body))]]
  | .collect bytes => Outline.record "Collect" [("bytes", toString bytes)]
  | .setField tuple index value =>
    Outline.record "TupleSet"
      [("tuple", tuple.outline), ("index", toString index), ("value", value.outline)]

/-- The outlines of the members of a list of statements. -/
def Stmt.outlines : List Stmt → List String
  | [] => []
  | statement :: statements => statement.outline :: Stmt.outlines statements

end

end TupleLang
