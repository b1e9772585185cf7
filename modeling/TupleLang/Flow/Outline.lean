import TupleLang.Flow.Basic
import TupleLang.Program.Outline

/-!
# Outlines of control-flow programs

The outlines of atoms, operations and statements, by which a stage reports a construct that it does
not take.
-/

namespace TupleLang.Flow

/-- The outline of an atom. -/
def Atom.outline : Atom → String
  | var name => Outline.tagged "Variable" [name.outline]
  | const value => Outline.tagged "Constant" [value.outline]

/-- The outline of a list of atoms. -/
def atomsOutline (atoms : List Atom) : String :=
  Outline.list (atoms.map Atom.outline)

/-- The outline of an operation. -/
def Operation.outline : Operation → String
  | atom operand => Outline.tagged "Atom" [operand.outline]
  | primitive operator operands =>
    Outline.record "Primitive"
      [("operator", operator.outline), ("operands", atomsOutline operands)]
  | call target arguments =>
    Outline.record "Call" [("target", target.outline), ("arguments", atomsOutline arguments)]
  | allocate bytes ty =>
    Outline.record "Allocate" [("bytes", toString bytes), ("ty", ty.outline)]
  | global name => Outline.tagged "GlobalValue" [name.outline]

/-- The outline of a statement. -/
def Stmt.outline : Stmt → String
  | assign target value =>
    Outline.record "Assign" [("target", target.outline), ("value", value.outline)]
  | print value => Outline.tagged "Print" [value.outline]
  | collect bytes => Outline.record "Collect" [("bytes", toString bytes)]
  | setField tuple index value =>
    Outline.record "TupleSet"
      [("tuple", tuple.outline), ("index", toString index), ("value", value.outline)]
  | goto label => Outline.tagged "Goto" [label.outline]
  | branch operator lhs rhs positive negative =>
    Outline.record "If"
      [("operator", operator.outline), ("lhs", lhs.outline), ("rhs", rhs.outline),
        ("positive", positive.outline), ("negative", negative.outline)]
  | ret value => Outline.tagged "Return" [value.outline]
  | tailCall target arguments =>
    Outline.record "TailCall" [("target", target.outline), ("arguments", atomsOutline arguments)]

end TupleLang.Flow
