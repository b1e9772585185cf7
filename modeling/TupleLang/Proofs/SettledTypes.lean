import TupleLang.Proofs.CheckedPrograms

/-!
# Types in the end

The checker finds out about variables as it goes along.  While a program runs, only what it found
out in the end matters: a loop comes back to its first statement when all of its body has run, and a
variable may be read although the assignment that made it known was never reached.
`Typing.Settled` restates the rules for programs as they are written, for the types that the
variables of a function have in the end (`Typing.Scope`); whatever follows the rules of the checker
follows these (`Typing.Checks.settled`, `Typing.TopLevelChecks.settled`).

The checker asks neither that a variable is assigned on every path to where it is read, nor that a
function returns on every path.  A `Typing.Discipline` says which of the two is asked for on top of
the rules.  Both are decided by looking at the text: `Stmt.assigns` and `Stmt.returns` say what a
statement certainly does when it is run, and `Stmt.readsKnown` that it reads nothing else than what
was assigned before.
-/

namespace TupleLang

/-! ## What statements certainly do -/

mutual

/-- Whether the statement never passes control on to the next one. -/
def Stmt.returns : Stmt → Bool
  | .ret _ => true
  | .ifElse _ positive negative => Stmt.returnsIn positive && Stmt.returnsIn negative
  | _ => false

/-- Whether the end of the statements is never reached. -/
def Stmt.returnsIn : List Stmt → Bool
  | [] => false
  | statement :: statements => statement.returns || Stmt.returnsIn statements

end

mutual

/-- Whether the variable certainly has a value once the statement passes control on. -/
def Stmt.assigns (name : Name) : Stmt → Bool
  | .assign target _ => target == name
  | .ifElse _ positive negative => Stmt.assignsIn name positive && Stmt.assignsIn name negative
  | .ret _ => true
  | _ => false

/-- Whether the variable certainly has a value when the end of the statements is reached. -/
def Stmt.assignsIn (name : Name) : List Stmt → Bool
  | [] => false
  | statement :: statements => statement.assigns name || Stmt.assignsIn name statements

end

/-- Whether all names that an expression reads are known. -/
def Expr.readsKnown (known : Name → Bool) (expression : Expr) : Bool :=
  expression.every (·.ownNames.all known) fun _ => true

/-- Whether all names that expressions read are known. -/
def Expr.readsKnownIn (known : Name → Bool) (expressions : List Expr) : Bool :=
  Expr.everyIn (·.ownNames.all known) (fun _ => true) expressions

@[simp] theorem Expr.readsKnown_var (known : Name → Bool) (name : Name) :
    (Expr.var name).readsKnown known = known name := by
  simp [Expr.readsKnown, Expr.every, Expr.ownNames]

@[simp] theorem Expr.readsKnown_primitive (known : Name → Bool) (operator : Operator)
    (operands : List Expr) :
    (Expr.primitive operator operands).readsKnown known = Expr.readsKnownIn known operands := by
  simp [Expr.readsKnown, Expr.readsKnownIn, Expr.every, Expr.ownNames]

@[simp] theorem Expr.readsKnown_call (known : Name → Bool) (target : Expr)
    (arguments : List Expr) :
    (Expr.call target arguments).readsKnown known =
      (target.readsKnown known && Expr.readsKnownIn known arguments) := by
  simp [Expr.readsKnown, Expr.readsKnownIn, Expr.every, Expr.ownNames]

@[simp] theorem Expr.readsKnown_tuple (known : Name → Bool) (fields : List Expr) :
    (Expr.tuple fields).readsKnown known = Expr.readsKnownIn known fields := by
  simp [Expr.readsKnown, Expr.readsKnownIn, Expr.every, Expr.ownNames]

@[simp] theorem Expr.readsKnownIn_cons (known : Name → Bool) (expression : Expr)
    (expressions : List Expr) :
    Expr.readsKnownIn known (expression :: expressions) =
      (expression.readsKnown known && Expr.readsKnownIn known expressions) :=
  rfl

/-- What is known after a statement: what was known before it, and what it assigns. -/
def Stmt.learn (known : Name → Bool) (statement : Stmt) (name : Name) : Bool :=
  known name || statement.assigns name

mutual

/-- Whether a statement reads only names that are known, or assigned by the time they are read. -/
def Stmt.readsKnown (known : Name → Bool) : Stmt → Bool
  | .assign _ value | .print value | .ret value => value.readsKnown known
  | .ifElse condition positive negative =>
    condition.readsKnown known && Stmt.readsKnownIn known positive &&
      Stmt.readsKnownIn known negative
  | .whileDo condition body => condition.readsKnown known && Stmt.readsKnownIn known body
  | .setField tuple _ value => known tuple && value.readsKnown known
  | .define _ _ _ _ | .collect _ => true

/-- Whether statements read only names that are known, or assigned by the time they are read. -/
def Stmt.readsKnownIn (known : Name → Bool) : List Stmt → Bool
  | [] => true
  | statement :: statements =>
    statement.readsKnown known && Stmt.readsKnownIn (statement.learn known) statements

end

/-- Whether a name is a parameter of the function. -/
def Function.hasParameter (function : Function) (name : Name) : Bool :=
  (function.parameters.map Prod.fst).contains name

/-- Whether a name is that of a function of the program. -/
def Program.hasFunction (program : Program) (name : Name) : Bool :=
  (program.functions.map Function.name).contains name

/-- Whether every variable of the program is assigned before it is read, on every path through the
text. -/
def Program.assignsFirst (program : Program) : Bool :=
  Stmt.readsKnownIn program.hasFunction program.statements &&
    program.functions.all fun function =>
      Stmt.readsKnownIn (fun name => function.hasParameter name || program.hasFunction name)
        function.body

/-- Whether every function returns on every path through its text, or returns an integer, which the
zero at its end is. -/
def Program.alwaysReturns (program : Program) : Bool :=
  program.functions.all fun function => function.output == .int || Stmt.returnsIn function.body

open Interpreter (Task TablesMatch functionTable)

/-! ## The rules -/

namespace Interpreter.Task

/-- Whether every expression and every statement of a task passes. -/
def every (onExpr : Expr → Bool) (onStmt : Stmt → Bool) : Task → Bool
  | .expr expression => expression.every onExpr onStmt
  | .exprs expressions => Expr.everyIn onExpr onStmt expressions
  | .stmt statement => statement.every onExpr onStmt
  | .block statements => Stmt.everyIn onExpr onStmt statements
  | .turn condition body => condition.every onExpr onStmt && Stmt.everyIn onExpr onStmt body

/-- Whether a task reads only names that are known, or assigned by the time they are read. -/
def readsKnown (known : Name → Bool) : Task → Bool
  | .expr expression => expression.readsKnown known
  | .exprs expressions => Expr.readsKnownIn known expressions
  | .stmt statement => statement.readsKnown known
  | .block statements => Stmt.readsKnownIn known statements
  | .turn condition body => condition.readsKnown known && Stmt.readsKnownIn known body

end Interpreter.Task

/-- Whether the expression stands in programs as they are written, its parts apart. -/
def Expr.isWritten : Expr → Bool
  | .begin _ _ | .global _ | .allocate _ _ => false
  | _ => true

/-- Whether the statement stands in programs as they are written, its parts apart. -/
def Stmt.isWritten : Stmt → Bool
  | .collect _ | .setField _ _ _ => false
  | _ => true

/-- A program as it is written has only such parts. -/
theorem Program.isSurface_eq (program : Program) :
    program.isSurface = Stmt.everyIn Expr.isWritten Stmt.isWritten program.statements :=
  rfl

/-- So do its functions. -/
theorem Stmt.everyIn_body {onExpr : Expr → Bool} {onStmt : Stmt → Bool} {statements : List Stmt}
    (h : Stmt.everyIn onExpr onStmt statements = true) :
    ∀ f ∈ statements.filterMap Stmt.function?, Stmt.everyIn onExpr onStmt f.body = true := by
  intro f hf
  obtain ⟨statement, hmem, hfunction⟩ := List.mem_filterMap.mp hf
  have hevery := Stmt.everyIn_iff.mp h statement hmem
  cases statement with
  | define name parameters output body =>
    cases hfunction
    exact (Bool.and_eq_true _ _ ▸ hevery).2
  | _ => cases hfunction

namespace Interpreter

/-- What the table of functions has is a function of the program, under its name. -/
theorem mem_of_functionTable {program : Program} {name : Name} {f : Function}
    (h : (functionTable program)[name]? = some f) : f ∈ program.functions ∧ f.name = name := by
  rcases getElem?_foldl_insert h with hempty | ⟨g, hmem, hname, rfl⟩
  · simp at hempty
  · exact ⟨hmem, hname⟩

/-- The table has the functions of the program. -/
theorem contains_functionTable (program : Program) (name : Name) :
    (functionTable program).contains name = program.hasFunction name := by
  rw [functionTable, contains_foldl_insert]
  simp [Program.hasFunction]

end Interpreter

namespace Typing

/-- What is asked of a program on top of the typing rules. -/
structure Discipline where
  /-- Whether functions return a value of their type on every path. -/
  returns : Bool := false
  /-- Whether variables are assigned on every path to where they are read. -/
  assigns : Bool := false

/-- What is known about a function in the end: the types of its variables, and the type that it
returns. -/
structure Scope (functions : Std.ExtTreeMap Name Ty) where
  /-- The types of its variables. -/
  types : VariableTypes
  /-- The type to be returned, inside a function definition. -/
  output? : Option Ty
  /-- The name of a function is no variable. -/
  apart : ∀ {name : Name}, functions.contains name = true → types[name]? = none

/-- The typing rules of programs as they are written, for the types that variables have in the end.
The names in `known` certainly have a value when the task begins. -/
inductive Settled (discipline : Discipline) {functions : Std.ExtTreeMap Name Ty}
    (scope : Scope functions) : (known : Name → Bool) → Task → Verdict → Prop where
  | known {known : Name → Bool} {name : Name} {ty : Ty} (h : scope.types[name]? = some ty)
      (hread : discipline.assigns = true → known name = true) :
    Settled discipline scope known (.expr (.var name)) (.ty ty)
  | function {known : Name → Bool} {name : Name} {ty : Ty} (h : scope.types[name]? = none)
      (hfunction : functions[name]? = some ty) :
    Settled discipline scope known (.expr (.var name)) (.ty ty)
  | int {known : Name → Bool} (value : Word) :
    Settled discipline scope known (.expr (.const (.int value))) (.ty .int)
  | bool {known : Name → Bool} (value : Bool) :
    Settled discipline scope known (.expr (.const (.bool value))) (.ty .bool)
  | subscript {known : Name → Bool} {tuple : Expr} {index : Word} {fields : List Ty} {ty : Ty}
      (ht : Settled discipline scope known (.expr tuple) (.ty (.tuple fields)))
      (hfield : index.toCount?.bind (fields[·]?) = some ty) :
    Settled discipline scope known (.expr (.primitive .subscript [tuple, .const (.int index)]))
      (.ty ty)
  | shortCircuit {known : Name → Bool} {operator : Operator} {lhs rhs : Expr}
      (hoperator : operator.isShortCircuiting = true)
      (hl : Settled discipline scope known (.expr lhs) (.ty .bool))
      (hr : Settled discipline scope known (.expr rhs) (.ty .bool)) :
    Settled discipline scope known (.expr (.primitive operator [lhs, rhs])) (.ty .bool)
  | primitive {known : Name → Bool} {operator : Operator} {operands : List Expr} {tys : List Ty}
      {ty : Ty} (hstrict : operator.isShortCircuiting = false)
      (hs : Settled discipline scope known (.exprs operands) (.tys tys))
      (hty : operator.resultType? tys = some ty) :
    Settled discipline scope known (.expr (.primitive operator operands)) (.ty ty)
  | call {known : Name → Bool} {target : Expr} {arguments : List Expr} {tys : List Ty} {ty : Ty}
      (ht : Settled discipline scope known (.expr target) (.ty (.function tys ty)))
      (hs : Settled discipline scope known (.exprs arguments) (.tys tys)) :
    Settled discipline scope known (.expr (.call target arguments)) (.ty ty)
  | tuple {known : Name → Bool} {fields : List Expr} {tys : List Ty}
      (hs : Settled discipline scope known (.exprs fields) (.tys tys)) :
    Settled discipline scope known (.expr (.tuple fields)) (.ty (.tuple tys))
  | exprsNil {known : Name → Bool} : Settled discipline scope known (.exprs []) (.tys [])
  | exprsCons {known : Name → Bool} {expression : Expr} {expressions : List Expr} {ty : Ty}
      {tys : List Ty} (he : Settled discipline scope known (.expr expression) (.ty ty))
      (hs : Settled discipline scope known (.exprs expressions) (.tys tys)) :
    Settled discipline scope known (.exprs (expression :: expressions)) (.tys (ty :: tys))
  | assign {known : Name → Bool} {target : Name} {value : Expr} {ty : Ty}
      (htarget : scope.types[target]? = some ty)
      (hv : Settled discipline scope known (.expr value) (.ty ty)) :
    Settled discipline scope known (.stmt (.assign target value)) .fine
  | print {known : Name → Bool} {value : Expr} {ty : Ty}
      (hv : Settled discipline scope known (.expr value) (.ty ty))
      (hprintable : ty.isPrintable = true) :
    Settled discipline scope known (.stmt (.print value)) .fine
  | ifElse {known : Name → Bool} {condition : Expr} {positive negative : List Stmt}
      (hc : Settled discipline scope known (.expr condition) (.ty .bool))
      (hp : Settled discipline scope known (.block positive) .fine)
      (hn : Settled discipline scope known (.block negative) .fine) :
    Settled discipline scope known (.stmt (.ifElse condition positive negative)) .fine
  | whileDo {known : Name → Bool} {condition : Expr} {body : List Stmt}
      (ht : Settled discipline scope known (.turn condition body) .fine) :
    Settled discipline scope known (.stmt (.whileDo condition body)) .fine
  | ret {known : Name → Bool} {value : Expr} {ty : Ty} (houtput : scope.output? = some ty)
      (hv : Settled discipline scope known (.expr value) (.ty ty)) :
    Settled discipline scope known (.stmt (.ret value)) .fine
  | define {known : Name → Bool} (name : Name) (parameters : List (Name × Ty)) (output : Ty)
      (body : List Stmt) :
    Settled discipline scope known (.stmt (.define name parameters output body)) .fine
  | blockNil {known : Name → Bool} : Settled discipline scope known (.block []) .fine
  | blockCons {known : Name → Bool} {statement : Stmt} {statements : List Stmt}
      (hs : Settled discipline scope known (.stmt statement) .fine)
      (hr : Settled discipline scope (statement.learn known) (.block statements) .fine) :
    Settled discipline scope known (.block (statement :: statements)) .fine
  | turn {known : Name → Bool} {condition : Expr} {body : List Stmt}
      (hc : Settled discipline scope known (.expr condition) (.ty .bool))
      (hb : Settled discipline scope known (.block body) .fine) :
    Settled discipline scope known (.turn condition body) .fine

variable {discipline : Discipline} {context : Context} {known : Name → Bool} {ss : List Stmt}
  {progress progress' : Progress} {lowered : Bool} {program : Program}
  {environment : TypeEnvironment}

/-- What follows the rules of the checker follows the rules for the types in the end. -/
theorem Checks.settled {task : Task} {Γ Γ' : VariableTypes} {verdict : Verdict}
    (h : Checks context task Γ verdict Γ') (scope : Scope context.functions)
    (hscope : Extends context.functions Γ' scope.types) (houtput : scope.output? = context.output?)
    (hwritten : task.every Expr.isWritten Stmt.isWritten = true)
    (hreads : discipline.assigns = true → task.readsKnown known = true) :
    Settled discipline scope known task verdict := by
  induction h generalizing known with
  | known hname => exact .known (hscope.keeps hname) (by simpa [Task.readsKnown] using hreads)
  | @function _ name _ hname hfunction =>
    have hcontains : context.functions.contains name = true := by
      rw [Std.ExtTreeMap.contains_eq_isSome_getElem?, hfunction]
      rfl
    exact .function ((hscope.apart hcontains).trans hname) hfunction
  | int value => exact .int value
  | bool value => exact .bool value
  | subscript _ hfield ih =>
    simp only [Task.every, Expr.every, Expr.everyIn, Bool.and_eq_true] at hwritten
    simp only [Task.readsKnown, Expr.readsKnown_primitive, Expr.readsKnownIn_cons,
      Bool.and_eq_true] at hreads
    exact .subscript (ih hscope hwritten.2.1 fun ha => (hreads ha).1) hfield
  | shortCircuit hoperator _ hr ihl ihr =>
    simp only [Task.every, Expr.every, Expr.everyIn, Bool.and_eq_true] at hwritten
    simp only [Task.readsKnown, Expr.readsKnown_primitive, Expr.readsKnownIn_cons,
      Bool.and_eq_true] at hreads
    exact .shortCircuit hoperator
      (ihl (hr.extended.trans hscope) hwritten.2.1 fun ha => (hreads ha).1)
      (ihr hscope hwritten.2.2.1 fun ha => (hreads ha).2.1)
  | primitive hstrict _ hty ih =>
    simp only [Task.every, Expr.every, Bool.and_eq_true] at hwritten
    simp only [Task.readsKnown, Expr.readsKnown_primitive] at hreads
    exact .primitive hstrict (ih hscope hwritten.2 hreads) hty
  | call _ hs iht ihs =>
    simp only [Task.every, Expr.every, Bool.and_eq_true] at hwritten
    simp only [Task.readsKnown, Expr.readsKnown_call, Bool.and_eq_true] at hreads
    exact .call (iht (hs.extended.trans hscope) hwritten.1.2 fun ha => (hreads ha).1)
      (ihs hscope hwritten.2 fun ha => (hreads ha).2)
  | tuple _ _ ih =>
    simp only [Task.every, Expr.every, Bool.and_eq_true] at hwritten
    simp only [Task.readsKnown, Expr.readsKnown_tuple] at hreads
    exact .tuple (ih hscope hwritten.2 hreads)
  | «begin» _ _ _ _ | global _ | allocate _ _ | collect _ | setField _ _ _ _ =>
    simp [Task.every, Expr.every, Stmt.every, Expr.isWritten, Stmt.isWritten] at hwritten
  | exprsNil => exact .exprsNil
  | exprsCons _ hs ihe ihs =>
    simp only [Task.every, Expr.everyIn, Bool.and_eq_true] at hwritten
    simp only [Task.readsKnown, Expr.readsKnownIn_cons, Bool.and_eq_true] at hreads
    exact .exprsCons (ihe (hs.extended.trans hscope) hwritten.1 fun ha => (hreads ha).1)
      (ihs hscope hwritten.2 fun ha => (hreads ha).2)
  | @assignNew _ Γ₁ target _ ty _ hfunction _ hnew ih =>
    simp only [Task.every, Stmt.every, Bool.and_eq_true] at hwritten
    exact .assign (hscope.keeps (by simp))
      (ih ((Extends.insert hnew hfunction ty).trans hscope) hwritten.2 hreads)
  | assign _ _ _ hold ih =>
    simp only [Task.every, Stmt.every, Bool.and_eq_true] at hwritten
    exact .assign (hscope.keeps hold) (ih hscope hwritten.2 hreads)
  | print _ hprintable ih =>
    simp only [Task.every, Stmt.every, Bool.and_eq_true] at hwritten
    exact .print (ih hscope hwritten.2 hreads) hprintable
  | ifElse _ hp hn ihc ihp ihn =>
    simp only [Task.every, Stmt.every, Bool.and_eq_true] at hwritten
    simp only [Task.readsKnown, Stmt.readsKnown, Bool.and_eq_true] at hreads
    exact .ifElse
      (ihc (hp.extended.trans (hn.extended.trans hscope)) hwritten.1.1.2 fun ha => (hreads ha).1.1)
      (ihp (hn.extended.trans hscope) hwritten.1.2 fun ha => (hreads ha).1.2)
      (ihn hscope hwritten.2 fun ha => (hreads ha).2)
  | whileDo _ hb ihc ihb =>
    simp only [Task.every, Stmt.every, Bool.and_eq_true] at hwritten
    simp only [Task.readsKnown, Stmt.readsKnown, Bool.and_eq_true] at hreads
    exact .whileDo (.turn
      (ihc (hb.extended.trans hscope) hwritten.1.2 fun ha => (hreads ha).1)
      (ihb hscope hwritten.2 fun ha => (hreads ha).2))
  | ret hret _ ih =>
    simp only [Task.every, Stmt.every, Bool.and_eq_true] at hwritten
    exact .ret (houtput.trans hret) (ih hscope hwritten.2 hreads)
  | blockNil => exact .blockNil
  | blockCons _ hr ihs ihr =>
    simp only [Task.every, Stmt.everyIn, Bool.and_eq_true] at hwritten
    simp only [Task.readsKnown, Stmt.readsKnownIn, Bool.and_eq_true] at hreads
    exact .blockCons (ihs (hr.extended.trans hscope) hwritten.1 fun ha => (hreads ha).1)
      (ihr hscope hwritten.2 fun ha => (hreads ha).2)

/-- The statements of a program, definitions among them, follow the rules for the types in the
end. -/
theorem TopLevelChecks.settled (h : TopLevelChecks context ss progress progress')
    (scope : Scope context.functions)
    (hscope : Extends context.functions progress'.topLevel scope.types)
    (houtput : scope.output? = context.output?)
    (hwritten : Stmt.everyIn Expr.isWritten Stmt.isWritten ss = true)
    (hreads : discipline.assigns = true → Stmt.readsKnownIn known ss = true) :
    Settled discipline scope known (.block ss) .fine := by
  induction h generalizing known with
  | nil => exact .blockNil
  | @define _ _ statement _ _ _ hdefines _ _ ih =>
    simp only [Stmt.everyIn, Bool.and_eq_true] at hwritten
    simp only [Stmt.readsKnownIn, Bool.and_eq_true] at hreads
    have hrest := ih hscope hwritten.2 fun ha => (hreads ha).2
    cases statement with
    | define name parameters output body => exact .blockCons (.define ..) hrest
    | _ => cases hdefines
  | stmt _ hstatement hrest ih =>
    simp only [Stmt.everyIn, Bool.and_eq_true] at hwritten
    simp only [Stmt.readsKnownIn, Bool.and_eq_true] at hreads
    exact .blockCons
      (hstatement.settled scope (hrest.extended.trans hscope) houtput hwritten.1
        fun ha => (hreads ha).1)
      (ih hscope hwritten.2 fun ha => (hreads ha).2)

/-! ## Functions and programs -/

/-- Parameters get the types that they are declared with. -/
theorem foldlM_addParameter_eq_ok {parameters : List (Name × Ty)} {function : Name}
    {known known' : VariableTypes}
    (h : parameters.foldlM (addParameter context function) known = .ok known') :
    Extends context.functions known known' ∧
      ∀ parameter ∈ parameters, known'[parameter.1]? = some parameter.2 := by
  induction parameters generalizing known with
  | nil =>
    cases h
    exact ⟨.refl _, List.forall_mem_nil _⟩
  | cons parameter parameters ih =>
    rw [List.foldlM_cons, Except.bind_eq_ok] at h
    obtain ⟨middle, hfirst, hrest⟩ := h
    obtain ⟨-, hfunction, hnew, rfl⟩ := addParameter_eq_ok.mp hfirst
    obtain ⟨hextends, hparameters⟩ := ih hrest
    rw [Std.ExtTreeMap.contains_eq_isSome_getElem?, Option.isSome_eq_false_iff,
      Option.isNone_iff_eq_none] at hnew
    exact ⟨(Extends.insert hnew hfunction parameter.2).trans hextends,
      List.forall_mem_cons.mpr ⟨hextends.keeps (by simp), hparameters⟩⟩

/-- The variables of each function are those that its check found. -/
theorem TopLevelChecks.exists_table (h : TopLevelChecks context ss progress progress')
    (hnodup : ((ss.filterMap Stmt.function?).map Function.name).Nodup) :
    ∀ f ∈ ss.filterMap Stmt.function?,
      ∃ known, progress'.tables[f.name]? = some known ∧ FunctionChecks context f known := by
  induction h with
  | nil => exact List.forall_mem_nil _
  | define hdefines hfunction hrest ih =>
    rw [List.filterMap_cons_some hdefines, List.map_cons, List.nodup_cons] at hnodup
    rw [List.filterMap_cons_some hdefines]
    refine List.forall_mem_cons.mpr ⟨⟨_, ?_, hfunction⟩, ih hnodup.2⟩
    rw [hrest.tables_eq hnodup.1]
    simp
  | stmt hplain _ _ ih =>
    rw [List.filterMap_cons_none hplain] at hnodup ⊢
    exact ih hnodup

/-- The body of a function follows the rules for the types in the end, and so do its parameters. -/
structure FunctionSettled (discipline : Discipline) {functions : Std.ExtTreeMap Name Ty}
    (scope : Scope functions) (function : Function) : Prop where
  output_eq : scope.output? = some function.output
  parameters : ∀ parameter ∈ function.parameters, scope.types[parameter.1]? = some parameter.2
  body : Settled discipline scope
    (fun name => function.hasParameter name || functions.contains name)
    (.block function.body) .fine
  returns : discipline.returns = true →
    function.output = .int ∨ Stmt.returnsIn function.body = true

/-- The statements of a program and the bodies of its functions follow the rules for the types in
the end. -/
structure ProgramSettled (discipline : Discipline) (program : Program)
    (environment : TypeEnvironment) : Prop where
  tables : TablesMatch (fun (f : Function) ty => ty = f.ty) (functionTable program)
    environment.functions
  topLevel : ∃ scope : Scope environment.functions,
    environment.variablesOf? Name.entryPoint = some scope.types ∧
      Settled discipline scope environment.functions.contains (.block program.statements) .fine
  function : ∀ (name : Name) (f : Function), (functionTable program)[name]? = some f →
    ∃ scope : Scope environment.functions, environment.variablesOf? name = some scope.types ∧
      FunctionSettled discipline scope f

/-- The rules for a function, for the types that its variables have in the end. -/
theorem FunctionChecks.settled {function : Function} {known : VariableTypes}
    (h : FunctionChecks context function known)
    (hwritten : Stmt.everyIn Expr.isWritten Stmt.isWritten function.body = true)
    (hreturns : discipline.returns = true →
      function.output = .int ∨ Stmt.returnsIn function.body = true)
    (hassigns : discipline.assigns = true → Stmt.readsKnownIn
      (fun name => function.hasParameter name || context.functions.contains name)
      function.body = true) :
    ∃ scope : Scope context.functions, scope.types = known ∧
      FunctionSettled discipline scope function := by
  obtain ⟨hparameters, hbody⟩ := h
  obtain ⟨hextends, hdeclared⟩ := foldlM_addParameter_eq_ok hparameters
  have hapart : ∀ {name : Name}, context.functions.contains name = true → known[name]? = none := by
    intro name hname
    rw [hbody.extended.apart hname, hextends.apart hname]
    simp
  let scope : Scope context.functions := ⟨known, some function.output, hapart⟩
  refine ⟨scope, rfl, rfl, fun parameter hmem => hbody.extended.keeps (hdeclared parameter hmem),
    ?_, hreturns⟩
  exact hbody.settled scope (.refl _) rfl hwritten hassigns

/-- A name stands for a function exactly when the program defines it. -/
theorem ProgramChecks.contains_functions (h : ProgramChecks lowered program environment) :
    environment.functions.contains = program.hasFunction := by
  funext name
  rw [h.tablesMatch.contains, Interpreter.contains_functionTable]

/-- An accepted program follows the rules for the types in the end. -/
theorem ProgramChecks.settled (h : ProgramChecks lowered program environment)
    (hsurface : program.isSurface = true)
    (hreturns : discipline.returns = true → program.alwaysReturns = true)
    (hassigns : discipline.assigns = true → program.assignsFirst = true) :
    ProgramSettled discipline program environment := by
  obtain ⟨progress, hprogress, hlocals⟩ := h.statements
  have hadded := signaturesAdded h.functions
  have hcontains := h.contains_functions
  refine ⟨h.tablesMatch, ?_, fun name f hf => ?_⟩
  · have hapart : ∀ {name : Name}, environment.functions.contains name = true →
        progress.topLevel[name]? = none := fun {name} hname =>
      (hprogress.extended.apart hname).trans (by simp)
    refine ⟨⟨progress.topLevel, none, hapart⟩, variablesOf?_entryPoint hlocals, ?_⟩
    refine hprogress.settled _ (.refl _) rfl (program.isSurface_eq ▸ hsurface) fun ha => ?_
    rw [hcontains]
    exact (Bool.and_eq_true _ _ ▸ hassigns ha).1
  · obtain ⟨hmem, rfl⟩ := Interpreter.mem_of_functionTable hf
    obtain ⟨known, htable, hchecks⟩ := hprogress.exists_table hadded.nodup f hmem
    have hvariables : environment.variablesOf? f.name = some known :=
      (variablesOf?_of_mayBind hlocals (hadded.bindable f hmem)).trans htable
    have hbody : discipline.assigns = true → Stmt.readsKnownIn
        (fun name => f.hasParameter name || environment.functions.contains name) f.body = true := by
      intro ha
      rw [hcontains]
      exact List.all_eq_true.mp (Bool.and_eq_true _ _ ▸ hassigns ha).2 f hmem
    have hreturned : discipline.returns = true →
        f.output = .int ∨ Stmt.returnsIn f.body = true := fun hr => by
      simpa using List.all_eq_true.mp (hreturns hr) f hmem
    obtain ⟨scope, rfl, hsettled⟩ := hchecks.settled
      (Stmt.everyIn_body (program.isSurface_eq ▸ hsurface) f hmem) hreturned hbody
    exact ⟨scope, hvariables, hsettled⟩

end Typing

end TupleLang
