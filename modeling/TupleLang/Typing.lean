import Std.Data.ExtTreeMap
import TupleLang.Error

/-!
# Type checking

The checker walks through a program in order and either reports the first fault or returns a
`TypeEnvironment`: the type of every function, and for every function (and the entry point) the
types of its parameters and of the variables it assigns.

The signatures of all functions are collected before any body is looked at, so functions may call
each other wherever they are defined.  Inside a function the known variables only grow
(`Typing.Check` carries them along): a variable gets the type of the first value assigned to it, in
the order of the text and whether or not that assignment is ever reached, and every later value
must have the same type.

Programs are checked as they are written (`Program.typeCheck`), where no generated name may be
bound, and again after lowering (`Program.typeCheckLowered`), where generated names are expected.
-/

namespace TupleLang

/-- The types of the variables of one function. -/
abbrev VariableTypes := Std.ExtTreeMap Name Ty

/-- What the checker finds out about a program. -/
structure TypeEnvironment where
  /-- The type of every function. -/
  functions : Std.ExtTreeMap Name Ty := ∅
  /-- The types of the variables of every function; top-level variables belong to the entry
  point. -/
  locals : Std.ExtTreeMap Name VariableTypes := ∅

/-- The types of the variables of a function, if the environment knows it. -/
def TypeEnvironment.variablesOf? (environment : TypeEnvironment) (function : Name) :
    Option VariableTypes :=
  environment.locals[function]?

/-- Whether a name stands for a function. -/
def TypeEnvironment.isFunction (environment : TypeEnvironment) (name : Name) : Bool :=
  environment.functions.contains name

namespace Typing

/-- Reports a fault. -/
def fault {α : Type} (fault : TypeFault) (site : Site) : Except CompileError α :=
  .error (.type fault site)

/-- What stays the same while the body of a function is checked. -/
structure Context where
  /-- Whether generated names may be bound. -/
  lowered : Bool
  /-- The types of all functions. -/
  functions : Std.ExtTreeMap Name Ty
  /-- The type to be returned, inside a function definition. -/
  output? : Option Ty

/-- A check that may look at the types of the variables known so far and add to them. -/
abbrev Check := StateT VariableTypes (Except CompileError)

/-- Refuses a name that may not be bound. -/
def bindingName (lowered : Bool) (name : Name) (site : Site) : Except CompileError Unit :=
  if Name.reserved.contains name || (!lowered && name.isGenerated) then
    fault (.reservedName name) site
  else .ok ()

/-- Refuses a type other than the expected one. -/
def expect (expected actual : Ty) (site : Site) : Except CompileError Unit :=
  if expected = actual then .ok () else fault (.mismatch expected actual) site

/-- The type of the field with the given index. -/
def fieldType (ty : Ty) (index : Word) (site : Site) : Except CompileError Ty :=
  match ty with
  | .tuple fields =>
    match index.toCount?.bind (fields[·]?) with
    | some field => .ok field
    | none => fault (.indexOutOfBounds index fields.length) site
  | other => fault (.notATuple other) site

/-- The type of the result of an operator, from the types of its operands.  Subscripts are not
decided by the types of their operands alone. -/
def resultType (operator : Operator) (types : List Ty) (site : Site) : Except CompileError Ty :=
  match operator with
  | .add | .sub | .mult | .neg => do
    types.forM (expect .int · site)
    return .int
  | .not | .and | .or => do
    types.forM (expect .bool · site)
    return .bool
  | .lt | .lte | .gt | .gte => do
    types.forM (expect .int · site)
    return .bool
  | .eq | .ne =>
    match types with
    | [lhs, rhs] => do
      if !lhs.isPrintable then fault (.mismatch .int lhs) site
      expect lhs rhs site
      return .bool
    | _ => fault (.operandCount operator types.length) site
  | .subscript => fault .nonConstantIndex site

end Typing

mutual

/-- The number of fields of the first tuple inside the type that is too large for a header. -/
def Ty.oversized? : Ty → Option Nat
  | .int | .bool => none
  | .tuple fields =>
    if fields.length > Ty.maxFields then some fields.length else Ty.oversizedIn? fields
  | .function parameters output => (Ty.oversizedIn? parameters).or output.oversized?

/-- The number of fields of the first tuple inside the types that is too large for a header. -/
def Ty.oversizedIn? : List Ty → Option Nat
  | [] => none
  | ty :: tys => ty.oversized?.or (Ty.oversizedIn? tys)

end

/-- Refuses a type whose values have no header. -/
def Typing.representable (ty : Ty) (site : Site) : Except CompileError Unit :=
  match ty.oversized? with
  | some actual => fault (.tupleTooLarge actual) site
  | none => .ok ()

open Typing

mutual

/-- The type of an expression. -/
def Expr.infer (context : Context) : Expr → Check Ty
  | .var name => do
    match (← get)[name]? <|> context.functions[name]? with
    | some ty => return ty
    | none => fault (.unboundVariable name) (.expression (.var name))
  | .const (.int _) => return .int
  | .const (.bool _) => return .bool
  | .primitive .subscript [tuple, index] => do
    let site := Site.expression (.primitive .subscript [tuple, index])
    let ty ← tuple.infer context
    match index with
    | .const (.int value) => fieldType ty value site
    | _ => fault .nonConstantIndex site
  | .primitive operator operands => do
    let site := Site.expression (.primitive operator operands)
    if operands.length ≠ operator.arity then
      fault (.operandCount operator operands.length) site
    let types ← Expr.inferList context operands
    resultType operator types site
  | .call target arguments => do
    let site := Site.expression (.call target arguments)
    match ← target.infer context with
    | .function parameters output =>
      if parameters.length ≠ arguments.length then
        fault (.argumentCount parameters.length arguments.length) site
      Expr.checkArguments context site parameters arguments
      return output
    | other => fault (.notAFunction other) site
  | .tuple fields => do
    let ty := Ty.tuple (← Expr.inferList context fields)
    representable ty (.expression (.tuple fields))
    return ty
  | .begin statements value => do
    Stmt.checkBlock context statements
    value.infer context
  | .global _ => return .int
  | .allocate bytes ty => do
    if !ty.isTuple then fault (.notATuple ty) (.expression (.allocate bytes ty))
    return ty

/-- The types of the members of a list of expressions. -/
def Expr.inferList (context : Context) : List Expr → Check (List Ty)
  | [] => return []
  | expression :: expressions => do
    let ty ← expression.infer context
    return ty :: (← Expr.inferList context expressions)

/-- Checks arguments against the types of the parameters, one after the other. -/
def Expr.checkArguments (context : Context) (site : Site) :
    List Ty → List Expr → Check Unit
  | parameter :: parameters, argument :: arguments => do
    let ty ← argument.infer context
    expect parameter ty site
    Expr.checkArguments context site parameters arguments
  | _, _ => return ()

/-- Checks a statement. -/
def Stmt.check (context : Context) : Stmt → Check Unit
  | .assign target value => do
    let site := Site.statement (.assign target value)
    bindingName context.lowered target site
    if context.functions.contains target then fault (.assignToFunction target) site
    let ty ← value.infer context
    match (← get)[target]? with
    | some existing => expect existing ty site
    | none => modify (·.insert target ty)
  | .print value => do
    let ty ← value.infer context
    if !ty.isPrintable then fault (.notPrintable ty) (.statement (.print value))
  | .ifElse condition positive negative => do
    let ty ← condition.infer context
    expect .bool ty (.statement (.ifElse condition positive negative))
    Stmt.checkBlock context positive
    Stmt.checkBlock context negative
  | .whileDo condition body => do
    let ty ← condition.infer context
    expect .bool ty (.statement (.whileDo condition body))
    Stmt.checkBlock context body
  | .ret value => do
    let site := Site.statement (.ret value)
    match context.output? with
    | some output =>
      let ty ← value.infer context
      expect output ty site
    | none => fault .returnOutsideFunction site
  | .define name parameters output body =>
    fault .nestedFunction (.statement (.define name parameters output body))
  | .collect _ => return ()
  | .setField tuple index value => do
    let site := Site.statement (.setField tuple index value)
    match (← get)[tuple]? <|> context.functions[tuple]? with
    | some ty =>
      let field ← fieldType ty (Word.ofCount index) site
      let actual ← value.infer context
      expect field actual site
    | none => fault (.unboundVariable tuple) (.expression (.var tuple))

/-- Checks statements one after the other. -/
def Stmt.checkBlock (context : Context) : List Stmt → Check Unit
  | [] => return ()
  | statement :: statements => do
    statement.check context
    Stmt.checkBlock context statements

end

namespace Typing

/-- Collects the type of one more function. -/
def addSignature (lowered : Bool) (functions : Std.ExtTreeMap Name Ty) (function : Function) :
    Except CompileError (Std.ExtTreeMap Name Ty) := do
  let site := Site.signature function.name
  bindingName lowered function.name site
  if functions.contains function.name then fault (.duplicateDefinition function.name) site
  representable function.ty site
  return functions.insert function.name function.ty

/-- Adds one more parameter of the function `name` to its variables. -/
def addParameter (context : Context) (name : Name) (known : VariableTypes) :
    Name × Ty → Except CompileError VariableTypes
  | (parameter, ty) => do
    let site := Site.signature name
    bindingName context.lowered parameter site
    if context.functions.contains parameter then fault (.assignToFunction parameter) site
    if known.contains parameter then fault (.duplicateDefinition parameter) site
    return known.insert parameter ty

/-- The types of the variables of a function. -/
def checkFunction (context : Context) (function : Function) :
    Except CompileError VariableTypes := do
  let parameters ← function.parameters.foldlM (addParameter context function.name) ∅
  let inside := { context with output? := some function.output }
  let ((), known) ← (Stmt.checkBlock inside function.body).run parameters
  return known

/-- What is known about variables after a part of the program: the tables of the functions checked
so far, and the top-level variables. -/
structure Progress where
  /-- The variables of the functions checked so far. -/
  tables : Std.ExtTreeMap Name VariableTypes := ∅
  /-- The variables of the entry point. -/
  topLevel : VariableTypes := ∅

/-- Checks one more statement of the program. -/
def checkTopLevel (context : Context) (progress : Progress) (statement : Stmt) :
    Except CompileError Progress :=
  match statement.function? with
  | some function => do
    let known ← checkFunction context function
    return { progress with tables := progress.tables.insert function.name known }
  | none => do
    let ((), known) ← (statement.check context).run progress.topLevel
    return { progress with topLevel := known }

/-- Checks a program, in which generated names may be bound or not. -/
def checkProgram (lowered : Bool) (program : Program) : Except CompileError TypeEnvironment := do
  let functions ← program.functions.foldlM (addSignature lowered) ∅
  let progress ← program.statements.foldlM (checkTopLevel ⟨lowered, functions, none⟩) {}
  return ⟨functions, progress.tables.insert Name.entryPoint progress.topLevel⟩

end Typing

/-- Checks a program as it is written. -/
def Program.typeCheck (program : Program) : Except CompileError TypeEnvironment :=
  checkProgram false program

/-- Checks a program that earlier stages produced. -/
def Program.typeCheckLowered (program : Program) : Except CompileError TypeEnvironment :=
  checkProgram true program

end TupleLang
