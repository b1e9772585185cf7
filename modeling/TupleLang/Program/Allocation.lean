import TupleLang.Error
import TupleLang.Header
import TupleLang.Typing

/-!
# Explicit allocation

`Program.exposeAllocation` replaces each assignment of a tuple literal in a flat program by the
statements that build the tuple: the fields are saved in new variables, the collector is asked for
room unless the free part of the heap certainly has it, a raw tuple is taken from the heap, and its
fields are set one by one (`Allocation.ofTuple`).

Saving the fields first matters when the target is one of them.  No code runs between the request
for room and the allocation, so the room is still there.
-/

namespace TupleLang

namespace Allocation

/-- Refuses a construct. -/
def refuse {α : Type} (construct : Construct) : Except CompileError α :=
  .error (.unsupported .exposeAllocation construct)

/-- The type of an atom inside a function. -/
def typeOfAtom (environment : TypeEnvironment) (function : Name) :
    Expr → Except CompileError Ty
  | .const (.int _) => .ok .int
  | .const (.bool _) => .ok .bool
  | .var name =>
    match ((environment.variablesOf? function).bind (·[name]?)) <|>
        environment.functions[name]? with
    | some ty => .ok ty
    | none => refuse (.name name)
  | atom => refuse (.expression atom)

/-- Saves each field in a new variable. -/
def saveFields : List Expr → Lowering (List (Name × Expr))
  | [] => return []
  | field :: fields => do
    let name ← Lowering.fresh "field"
    return (name, field) :: (← saveFields fields)

/-- Asks for room for so many bytes unless the heap certainly has it; the three variables hold the
end of the used part, the end of it after the allocation, and the end of the heap. -/
def reserveRoom (used next limit : Name) (bytes : Nat) : List Stmt :=
  [.assign used (.global Name.freePointer),
    .assign next (.primitive .add [.var used, .int (Word.ofCount bytes)]),
    .assign limit (.global Name.fromspaceEnd),
    .ifElse (.primitive .lt [.var next, .var limit]) [] [.collect bytes]]

/-- Sets the fields of a tuple from the variables that hold them, from a given index on. -/
def setFields (tuple : Name) : Nat → List Name → List Stmt
  | _, [] => []
  | index, field :: fields =>
    .setField tuple index (.var field) :: setFields tuple (index + 1) fields

/-- The statements that assign a new tuple with the given fields to a variable. -/
def ofTuple (environment : TypeEnvironment) (function target : Name) (fields : List Expr) :
    Lowering (List Stmt) := do
  let types ← fields.mapM fun field => (typeOfAtom environment function field : Lowering Ty)
  let bytes := Header.allocationSize types.length
  let saved ← saveFields fields
  let used ← Lowering.fresh "end"
  let next ← Lowering.fresh "next"
  let limit ← Lowering.fresh "limit"
  return saved.map (fun (name, field) => .assign name field) ++
    reserveRoom used next limit bytes ++
    [.assign target (.allocate bytes (.tuple types))] ++
    setFields target 0 (saved.map Prod.fst)

end Allocation

mutual

/-- Makes the allocations of a statement explicit. -/
def Stmt.exposeAllocation (environment : TypeEnvironment) (function : Name) :
    Stmt → Lowering (List Stmt)
  | .assign target (.tuple fields) => Allocation.ofTuple environment function target fields
  | .ifElse condition positive negative => do
    let positive ← Stmt.exposeBlock environment function positive
    let negative ← Stmt.exposeBlock environment function negative
    return [.ifElse condition positive negative]
  | .whileDo (.begin statements value) body => do
    let statements ← Stmt.exposeBlock environment function statements
    let body ← Stmt.exposeBlock environment function body
    return [.whileDo (.begin statements value) body]
  | .whileDo condition body => do
    let body ← Stmt.exposeBlock environment function body
    return [.whileDo condition body]
  | .define name _ _ _ => Lowering.unsupported .exposeAllocation (.name name)
  | statement => return [statement]

/-- Makes the allocations of statements explicit, one after the other. -/
def Stmt.exposeBlock (environment : TypeEnvironment) (function : Name) :
    List Stmt → Lowering (List Stmt)
  | [] => return []
  | statement :: statements => do
    let first ← statement.exposeAllocation environment function
    let rest ← Stmt.exposeBlock environment function statements
    return first ++ rest

end

/-- Makes the allocations of a top-level statement explicit, inside the functions too. -/
def Stmt.exposeTopLevel (environment : TypeEnvironment) (statement : Stmt) :
    Lowering (List Stmt) :=
  match statement with
  | .define name parameters output body => do
    let body ← Stmt.exposeBlock environment name body
    return [.define name parameters output body]
  | statement => statement.exposeAllocation environment Name.entryPoint

/-- Makes every allocation of a flat program explicit. -/
def Program.exposeAllocation (environment : TypeEnvironment) (program : Program) :
    Lowering Program := do
  return ⟨(← program.statements.mapM (Stmt.exposeTopLevel environment)).flatten⟩

end TupleLang
