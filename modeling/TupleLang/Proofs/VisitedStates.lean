import Mathlib.Logic.Relation
import TupleLang.Proofs.TypeSafety

/-!
# States along a run

The interpreter gives the output of a program and nothing of what happens on the way, and nothing at
all when a program fails or runs out of budget.  To speak of every point of a run, this file says
which tasks the interpreter comes to: `Interpreter.Starts` relates a task in a state to the tasks
that the interpreter starts in order to run it, and the states in which it starts them.  One rule
stands for one place in the interpreter where it calls itself; whatever ran before that place has to
have ended well.  A run comes to a task if a chain of such steps leads to it (`Program.ComesTo`),
and it passes through the states in which these tasks begin and end (`Program.Passes`).

Variables hold values of their types at all of these points, also those of the functions that wait
for a call to return.
-/

namespace TupleLang

open Interpreter

/-- The expression that a statement evaluates before anything else. -/
def Stmt.operand? : Stmt → Option Expr
  | .assign _ value | .print value | .ret value | .setField _ _ value => some value
  | .ifElse test _ _ => some test
  | .whileDo _ _ | .define _ _ _ _ | .collect _ => none

namespace Interpreter

/-- The variables of a function that has been called and has not returned. -/
structure Frame where
  /-- The function; the entry point, for the statements of the program. -/
  function : Name
  /-- Its variables. -/
  locals : Locals

/-- Where in a run the interpreter is. -/
structure Place where
  /-- How deep code may be entered anew from here. -/
  depth : Nat
  /-- The function that is running. -/
  function : Name
  /-- The functions that wait for it to return. -/
  callers : List Frame

/-- A task that is about to be run. -/
structure Activity where
  /-- Where it stands. -/
  place : Place
  /-- What there is to run. -/
  task : Task
  /-- The state in which it begins. -/
  state : State

/-- What code is entered with at a place. -/
def Place.enter (place : Place) (context : Context) : Entry → Eval Completion :=
  Interpreter.enter context place.depth

/-- To run the first activity, the interpreter starts the second one. -/
inductive Starts (context : Context) : Activity → Activity → Prop where
  | operands {place : Place} {s : State} {operator : Operator} {operands : List Expr}
      (h : operator.isShortCircuiting = false ∨ operands.length ≠ 2) :
    Starts context ⟨place, .expr (.primitive operator operands), s⟩ ⟨place, .exprs operands, s⟩
  | lhs {place : Place} {s : State} {operator : Operator} {lhs rhs : Expr}
      (h : operator.isShortCircuiting = true) :
    Starts context ⟨place, .expr (.primitive operator [lhs, rhs]), s⟩ ⟨place, .expr lhs, s⟩
  | andRhs {place : Place} {s s₁ : State} {lhs rhs : Expr}
      (h : lhs.eval context (place.enter context) s = .ok (.bool true, s₁)) :
    Starts context ⟨place, .expr (.primitive .and [lhs, rhs]), s⟩ ⟨place, .expr rhs, s₁⟩
  | orRhs {place : Place} {s s₁ : State} {lhs rhs : Expr}
      (h : lhs.eval context (place.enter context) s = .ok (.bool false, s₁)) :
    Starts context ⟨place, .expr (.primitive .or [lhs, rhs]), s⟩ ⟨place, .expr rhs, s₁⟩
  | target {place : Place} {s : State} {target : Expr} {arguments : List Expr} :
    Starts context ⟨place, .expr (.call target arguments), s⟩ ⟨place, .expr target, s⟩
  | arguments {place : Place} {s s₁ : State} {target : Expr} {arguments : List Expr} {value : Value}
      (h : target.eval context (place.enter context) s = .ok (value, s₁)) :
    Starts context ⟨place, .expr (.call target arguments), s⟩ ⟨place, .exprs arguments, s₁⟩
  | body {place : Place} {depth : Nat} {s s₁ s₂ : State} {target : Expr} {arguments : List Expr}
      {name : Name} {values : List Value} {function : Function} (hdepth : place.depth = depth + 1)
      (htarget : target.eval context (place.enter context) s = .ok (.function name, s₁))
      (harguments : Expr.evalAll context (place.enter context) arguments s₁ = .ok (values, s₂))
      (hfunction : context.functions[name]? = some function) :
    Starts context ⟨place, .expr (.call target arguments), s⟩
      ⟨⟨depth, name, ⟨place.function, s₂.locals⟩ :: place.callers⟩, .block function.body,
        { s₂ with locals := bindArguments (function.parameters.map Prod.fst) values }⟩
  | fields {place : Place} {s : State} {fields : List Expr} :
    Starts context ⟨place, .expr (.tuple fields), s⟩ ⟨place, .exprs fields, s⟩
  | statements {place : Place} {s : State} {ss : List Stmt} {value : Expr} :
    Starts context ⟨place, .expr (.begin ss value), s⟩ ⟨place, .block ss, s⟩
  | result {place : Place} {s s₁ : State} {ss : List Stmt} {value : Expr}
      (h : Stmt.execBlock context (place.enter context) ss s = .ok (.next, s₁)) :
    Starts context ⟨place, .expr (.begin ss value), s⟩ ⟨place, .expr value, s₁⟩
  | firstExpr {place : Place} {s : State} {e : Expr} {es : List Expr} :
    Starts context ⟨place, .exprs (e :: es), s⟩ ⟨place, .expr e, s⟩
  | otherExprs {place : Place} {s s₁ : State} {e : Expr} {es : List Expr} {value : Value}
      (h : e.eval context (place.enter context) s = .ok (value, s₁)) :
    Starts context ⟨place, .exprs (e :: es), s⟩ ⟨place, .exprs es, s₁⟩
  | operand {place : Place} {s s₁ : State} {statement : Stmt} {e : Expr}
      (he : statement.operand? = some e) (hspend : spend context s = .ok ((), s₁)) :
    Starts context ⟨place, .stmt statement, s⟩ ⟨place, .expr e, s₁⟩
  | branch {place : Place} {s s₁ s₂ : State} {test : Expr} {positive negative : List Stmt}
      {truth : Bool} (hspend : spend context s = .ok ((), s₁))
      (htest : test.eval context (place.enter context) s₁ = .ok (.bool truth, s₂)) :
    Starts context ⟨place, .stmt (.ifElse test positive negative), s⟩
      ⟨place, .block (if truth then positive else negative), s₂⟩
  | loop {place : Place} {s s₁ : State} {test : Expr} {body : List Stmt}
      (hspend : spend context s = .ok ((), s₁)) :
    Starts context ⟨place, .stmt (.whileDo test body), s⟩ ⟨place, .turn test body, s₁⟩
  | firstStmt {place : Place} {s : State} {statement : Stmt} {ss : List Stmt} :
    Starts context ⟨place, .block (statement :: ss), s⟩ ⟨place, .stmt statement, s⟩
  | otherStmts {place : Place} {s s₁ : State} {statement : Stmt} {ss : List Stmt}
      (h : statement.exec context (place.enter context) s = .ok (.next, s₁)) :
    Starts context ⟨place, .block (statement :: ss), s⟩ ⟨place, .block ss, s₁⟩
  | test {place : Place} {depth : Nat} {s : State} {test : Expr} {body : List Stmt}
      (hdepth : place.depth = depth + 1) :
    Starts context ⟨place, .turn test body, s⟩ ⟨{ place with depth }, .expr test, s⟩
  | turn {place : Place} {depth : Nat} {s s₁ : State} {test : Expr} {body : List Stmt}
      (hdepth : place.depth = depth + 1)
      (htest : test.eval context (Interpreter.enter context depth) s = .ok (.bool true, s₁)) :
    Starts context ⟨place, .turn test body, s⟩ ⟨{ place with depth }, .block body, s₁⟩
  | nextTurn {place : Place} {depth : Nat} {s s₁ s₂ s₃ : State} {test : Expr} {body : List Stmt}
      (hdepth : place.depth = depth + 1)
      (htest : test.eval context (Interpreter.enter context depth) s = .ok (.bool true, s₁))
      (hbody : Stmt.execBlock context (Interpreter.enter context depth) body s₁ = .ok (.next, s₂))
      (hspend : spend context s₂ = .ok ((), s₃)) :
    Starts context ⟨place, .turn test body, s⟩ ⟨{ place with depth }, .turn test body, s₃⟩

/-- The task ends well: begun in the first state, it leaves the second one. -/
def Task.EndsIn (context : Context) (enter : Entry → Eval Completion) (s s' : State) : Task → Prop
  | .expr e => ∃ value, e.eval context enter s = .ok (value, s')
  | .exprs es => ∃ values, Expr.evalAll context enter es s = .ok (values, s')
  | .stmt statement => ∃ completion, statement.exec context enter s = .ok (completion, s')
  | .block ss => ∃ completion, Stmt.execBlock context enter ss s = .ok (completion, s')
  | .turn test body => ∃ completion, enter (.turn test body) s = .ok (completion, s')

/-- The variables of all functions that have not returned, when the state is reached at the
place. -/
def Place.frames (place : Place) (s : State) : List Frame :=
  ⟨place.function, s.locals⟩ :: place.callers

end Interpreter

/-- The whole run of a program. -/
def Program.activity (program : Program) (budget : Nat) : Activity where
  place := ⟨2 * budget + 2, Name.entryPoint, []⟩
  task := .block program.statements
  state := { fuel := budget }

/-- When the program runs on the budget, the interpreter comes to the activity. -/
def Program.ComesTo (program : Program) (budget : Nat) (activity : Activity) : Prop :=
  Relation.ReflTransGen (Starts ⟨functionTable program, budget⟩) (program.activity budget) activity

/-- At some point of the run of the program on the budget, the functions that have not returned
have these variables, and the heap has these tuples. -/
inductive Program.Passes (program : Program) (budget : Nat) : List Frame → Heap → Prop where
  | begins {place : Place} {task : Task} {s : State} (h : program.ComesTo budget ⟨place, task, s⟩) :
    program.Passes budget (place.frames s) s.heap
  | ends {place : Place} {task : Task} {s s' : State} (h : program.ComesTo budget ⟨place, task, s⟩)
      (hends : task.EndsIn ⟨functionTable program, budget⟩
        (place.enter ⟨functionTable program, budget⟩) s s') :
    program.Passes budget (place.frames s') s'.heap

namespace Typing

/-! ## Activities of typed programs -/

variable {discipline : Discipline} {program : Program} {environment : TypeEnvironment}
  {context : Interpreter.Context} {heap : Heap} {scope : Scope environment.functions} {s : State}
  {task : Task} {known : Name → Bool} {verdict : Verdict} {activity : Activity}

/-- The variables of a function hold values of their types. -/
def FrameFits (zeros : Bool) (environment : TypeEnvironment) (heap : Heap) (frame : Frame) : Prop :=
  ∃ types, environment.variablesOf? frame.function = some types ∧
    ∀ (name : Name) (value : Value), frame.locals[name]? = some value →
      ∃ ty, types[name]? = some ty ∧ value.Fits zeros environment.functions heap ty

theorem FrameFits.mono {zeros : Bool} {heap' : Heap} {frame : Frame}
    (h : FrameFits zeros environment heap frame) (hgrows : heap.Grows heap') :
    FrameFits zeros environment heap' frame := by
  obtain ⟨types, hvariables, hlocals⟩ := h
  refine ⟨types, hvariables, fun name value hvalue => ?_⟩
  obtain ⟨ty, hty, hfits⟩ := hlocals name value hvalue
  exact ⟨ty, hty, hfits.mono hgrows⟩

/-- A state that is ready has a frame that fits. -/
theorem Typed.frameFits {function : Name} (h : Typed discipline scope s)
    (hvariables : environment.variablesOf? function = some scope.types) :
    FrameFits (!discipline.returns) environment s.heap ⟨function, s.locals⟩ :=
  ⟨scope.types, hvariables, h⟩

/-- The activity follows the rules, and all variables hold values of their types. -/
structure ActivityFits (discipline : Discipline) (environment : TypeEnvironment)
    (activity : Activity) : Prop where
  ready : ∃ scope : Scope environment.functions,
    environment.variablesOf? activity.place.function = some scope.types ∧
      ∃ known verdict, Settled discipline scope known activity.task verdict ∧
        Ready discipline scope known activity.state
  callers : ∀ frame ∈ activity.place.callers,
    FrameFits (!discipline.returns) environment activity.state.heap frame

/-- A unit of the budget is all that is spent. -/
theorem evaluated_of_spend {s₁ : State} (h : spend context s = .ok ((), s₁)) :
    Evaluated s (fun _ => True) s₁ := by
  have hstore := spend_eq_ok h
  have hheap : s₁.heap = s.heap := congrArg Store.heap hstore
  exact ⟨congrArg Store.locals hstore, hheap ▸ .refl _, trivial⟩

theorem ActivityFits.of_grows {place place' : Place}
    (hcallers : ∀ frame ∈ place.callers, FrameFits (!discipline.returns) environment heap frame)
    (hgrows : heap.Grows s.heap) (hplace : place'.callers = place.callers)
    (hvariables : environment.variablesOf? place'.function = some scope.types)
    (htask : Settled discipline scope known task verdict) (hs : Ready discipline scope known s) :
    ActivityFits discipline environment ⟨place', task, s⟩ :=
  ⟨⟨scope, hvariables, known, verdict, htask, hs⟩,
    fun frame hframe => (hcallers frame (hplace ▸ hframe)).mono hgrows⟩

/-- Whatever the interpreter starts follows the rules as well. -/
theorem ActivityFits.starts (hprogram : ProgramSettled discipline program environment)
    (hcontext : context.functions = functionTable program) {activity' : Activity}
    (h : ActivityFits discipline environment activity)
    (hstarts : Starts context activity activity') :
    ActivityFits discipline environment activity' := by
  obtain ⟨⟨scope, hvariables, known, verdict, htask, hs⟩, hcallers⟩ := h
  have henter := safe_enter hprogram hcontext
  -- what ran before was safe, so the new task starts in a state that is ready
  cases hstarts with
  | operands hoperands =>
    cases htask with
    | subscript ht _ =>
      exact .of_grows hcallers (.refl _) rfl hvariables
        (.exprsCons ht (.exprsCons (.int _) .exprsNil)) hs
    | shortCircuit hoperator _ _ => simp [hoperator] at hoperands
    | primitive _ hes _ => exact .of_grows hcallers (.refl _) rfl hvariables hes hs
  | lhs hoperator =>
    cases htask with
    | subscript _ _ => cases hoperator
    | shortCircuit _ hl _ => exact .of_grows hcallers (.refl _) rfl hvariables hl hs
    | primitive hstrict _ _ => cases hoperator.symm.trans hstrict
  | @andRhs place _ _ _ _ heval | @orRhs place _ _ _ _ heval =>
    cases htask with
    | shortCircuit _ hl hr =>
      have h₁ := Safe.of_eq_ok (hl.safe hprogram hcontext (henter place.depth) hs) heval
      exact .of_grows hcallers h₁.grows rfl hvariables hr (hs.evaluated h₁)
    | primitive hstrict _ _ => cases hstrict
  | target =>
    cases htask with
    | call ht _ => exact .of_grows hcallers (.refl _) rfl hvariables ht hs
  | @arguments place _ _ _ _ _ heval =>
    cases htask with
    | call ht hes =>
      have h₁ := Safe.of_eq_ok (ht.safe hprogram hcontext (henter place.depth) hs) heval
      exact .of_grows hcallers h₁.grows rfl hvariables hes (hs.evaluated h₁)
  | @body place depth _ _ s₂ _ _ name values function hdepth htarget harguments hfunction =>
    cases htask with
    | call ht hes =>
      have h₁ := Safe.of_eq_ok (ht.safe hprogram hcontext (henter place.depth) hs) htarget
      have h₂ := Safe.of_eq_ok
        (hes.safe hprogram hcontext (henter place.depth) (hs.evaluated h₁)) harguments
      have hcaller := (hs.typed.evaluated (h₁.trans h₂)).frameFits hvariables
      rcases h₁.good.function_or_zero with ⟨_, hfound, hname⟩ | ⟨_, hzero⟩
      · cases hfound
        obtain ⟨f, hf, hty⟩ := hprogram.tables.findSource hname
        cases hf.symm.trans (hcontext ▸ hfunction)
        cases hty
        obtain ⟨scope', hvariables', hsettled⟩ := hprogram.function name function hf
        refine ⟨⟨scope', hvariables', _, _, hsettled.body, hsettled.ready h₂.good⟩, ?_⟩
        exact List.forall_mem_cons.mpr ⟨hcaller, fun frame hframe =>
          (hcallers frame hframe).mono (h₁.trans h₂).grows⟩
      · cases hzero
  | fields =>
    cases htask with
    | tuple hes => exact .of_grows hcallers (.refl _) rfl hvariables hes hs
  | statements => cases htask
  | result _ => cases htask
  | firstExpr =>
    cases htask with
    | exprsCons he _ => exact .of_grows hcallers (.refl _) rfl hvariables he hs
  | @otherExprs place _ _ _ _ _ heval =>
    cases htask with
    | exprsCons he hes =>
      have h₁ := Safe.of_eq_ok (he.safe hprogram hcontext (henter place.depth) hs) heval
      exact .of_grows hcallers h₁.grows rfl hvariables hes (hs.evaluated h₁)
  | operand he hspend =>
    have h₁ := evaluated_of_spend hspend
    cases htask with
    | assign _ hv | print hv _ | ret _ hv | ifElse hv _ _ =>
      cases he
      exact .of_grows hcallers h₁.grows rfl hvariables hv (hs.evaluated h₁)
    | whileDo _ | define => cases he
  | @branch place _ _ _ _ _ _ truth hspend htest =>
    have h₁ := evaluated_of_spend hspend
    cases htask with
    | ifElse hc hp hn =>
      have htest := Safe.of_eq_ok
        (hc.safe hprogram hcontext (henter place.depth) (hs.evaluated h₁)) htest
      have h₂ := h₁.trans htest
      cases truth with
      | true => exact .of_grows hcallers h₂.grows rfl hvariables hp (hs.evaluated h₂)
      | false => exact .of_grows hcallers h₂.grows rfl hvariables hn (hs.evaluated h₂)
  | loop hspend =>
    have h₁ := evaluated_of_spend hspend
    cases htask with
    | whileDo ht => exact .of_grows hcallers h₁.grows rfl hvariables ht (hs.evaluated h₁)
  | firstStmt =>
    cases htask with
    | blockCons hstatement _ => exact .of_grows hcallers (.refl _) rfl hvariables hstatement hs
  | @otherStmts place _ _ _ _ hexec =>
    cases htask with
    | blockCons hstatement hrest =>
      have h₁ := Safe.of_eq_ok (hstatement.safe hprogram hcontext (henter place.depth) hs) hexec
      exact .of_grows hcallers h₁.grows rfl hvariables hrest (h₁.next rfl).2
  | test _ =>
    cases htask with
    | turn hc _ => exact .of_grows hcallers (.refl _) rfl hvariables hc hs
  | @turn _ depth _ _ _ _ _ htest =>
    cases htask with
    | turn hc hb =>
      have h₁ := Safe.of_eq_ok (hc.safe hprogram hcontext (henter depth) hs) htest
      exact .of_grows hcallers h₁.grows rfl hvariables hb (hs.evaluated h₁)
  | @nextTurn _ depth _ _ _ _ _ _ _ htest hbody hspend =>
    cases htask with
    | turn hc hb =>
      have h₁ := Safe.of_eq_ok (hc.safe hprogram hcontext (henter depth) hs) htest
      have h₂ := Safe.of_eq_ok (hb.safe hprogram hcontext (henter depth) (hs.evaluated h₁)) hbody
      have h₃ := evaluated_of_spend hspend
      exact .of_grows hcallers (h₁.grows.trans (h₂.grows.trans h₃.grows)) rfl hvariables
        (.turn hc hb) (h₂.readyAgain.evaluated h₃)

/-- Where a safe task ends, variables hold values of their types. -/
theorem TaskSafe.of_endsIn {enter : Entry → Eval Completion} {s' : State}
    (h : TaskSafe discipline scope known context enter s task verdict)
    (hs : Ready discipline scope known s) (hends : task.EndsIn context enter s s') :
    Typed discipline scope s' ∧ s.heap.Grows s'.heap := by
  cases task with
  | expr e =>
    obtain ⟨value, heval⟩ := hends
    cases verdict with
    | ty ty =>
      have h₁ := Safe.of_eq_ok h heval
      exact ⟨hs.typed.evaluated h₁, h₁.grows⟩
    | _ => cases h
  | exprs es =>
    obtain ⟨values, heval⟩ := hends
    cases verdict with
    | tys tys =>
      have h₁ := Safe.of_eq_ok h heval
      exact ⟨hs.typed.evaluated h₁, h₁.grows⟩
    | _ => cases h
  | stmt _ | block _ | turn _ _ =>
    obtain ⟨completion, hexec⟩ := hends
    cases verdict with
    | fine =>
      have h₁ := Safe.of_eq_ok h hexec
      exact ⟨h₁.typed, h₁.grows⟩
    | _ => cases h

variable {budget : Nat}

/-- Everything that a program comes to follows the rules. -/
theorem ProgramSettled.activityFits (h : ProgramSettled discipline program environment)
    (hcomes : program.ComesTo budget activity) : ActivityFits discipline environment activity := by
  induction hcomes with
  | refl =>
    obtain ⟨scope, hvariables, htopLevel⟩ := h.topLevel
    exact ⟨⟨scope, hvariables, _, _, htopLevel, ready_start budget⟩, List.forall_mem_nil _⟩
  | tail _ hstarts ih => exact ih.starts h rfl hstarts

/-- At every point of a run, the variables of all functions hold values of their types. -/
theorem ProgramSettled.framesFit (h : ProgramSettled discipline program environment)
    {frames : List Frame} (hpasses : program.Passes budget frames heap) :
    ∀ frame ∈ frames, FrameFits (!discipline.returns) environment heap frame := by
  cases hpasses with
  | begins hcomes =>
    obtain ⟨⟨scope, hvariables, known, verdict, -, hs⟩, hcallers⟩ := h.activityFits hcomes
    exact List.forall_mem_cons.mpr ⟨hs.typed.frameFits hvariables, hcallers⟩
  | @ends place task s s' hcomes hends =>
    obtain ⟨⟨scope, hvariables, known, verdict, htask, hs⟩, hcallers⟩ := h.activityFits hcomes
    let context : Interpreter.Context := ⟨functionTable program, budget⟩
    have hcontext : context.functions = functionTable program := rfl
    have hsafe := htask.safe h hcontext (safe_enter h hcontext place.depth) hs
    obtain ⟨htyped, hgrows⟩ := hsafe.of_endsIn hs hends
    exact List.forall_mem_cons.mpr ⟨htyped.frameFits hvariables, fun frame hframe =>
      (hcallers frame hframe).mono hgrows⟩

end Typing

/-- At every point of the run of an accepted program, on any budget, every variable of every
function that has not returned holds a value of the type that the checker gave it, or a zero; so no
field is ever asked for that is not there. -/
theorem Program.variables_keep_their_types {program : Program} {environment : TypeEnvironment}
    (hsurface : program.isSurface = true) (htypes : program.typeCheck = .ok environment)
    (budget : Nat) :
    (∀ frames heap, program.Passes budget frames heap →
        ∀ frame ∈ frames, Typing.FrameFits true environment heap frame) ∧
      ∀ index shown, program.interpret budget ≠ .error (.indexOutOfBounds index shown) := by
  have hsettled : Typing.ProgramSettled {} program environment :=
    (Typing.checkProgram_eq_ok.mp htypes).settled hsurface (fun h => by cases h) fun h => by cases h
  exact ⟨fun frames heap hpasses => hsettled.framesFit hpasses,
    fun index shown herror => hsettled.isExcused herror⟩

/-- The function returns a pair only for a positive number, and the variable gets a zero. -/
def Program.missingPair : Program := ⟨[
  .define "f" [("n", .int)] (.tuple [.int, .bool])
    [.ifElse (.primitive .gt [.var "n", .const (.int 0)])
      [.ret (.tuple [.var "n", .const (.bool true)])] []],
  .assign "p" (.call (.var "f") [.const (.int 1)]),
  .print (.primitive .subscript [.var "p", .const (.int 0)]),
  .assign "p" (.call (.var "f") [.const (.int 0)])]⟩

/-- A program that misses a result. -/
theorem Program.variables_keep_their_types_missingPair :
    Program.missingPair.isSurface = true ∧
      ∃ environment, Program.missingPair.typeCheck = .ok environment ∧
        (∀ frames heap, Program.missingPair.Passes 20 frames heap →
          ∀ frame ∈ frames, Typing.FrameFits true environment heap frame) ∧
        (∀ index shown,
          Program.missingPair.interpret 20 ≠ .error (.indexOutOfBounds index shown)) ∧
        ∃ locals heap, Program.missingPair.Passes 20 [⟨Name.entryPoint, locals⟩] heap ∧
          locals["p"]? = some (.int 0) := by
  have hsurface : Program.missingPair.isSurface = true := by decide
  let context : Context := ⟨functionTable Program.missingPair, 20⟩
  have hzero : ((Stmt.execBlock context (enter context 42) Program.missingPair.statements
      { fuel := 20 }).toOption.bind (·.2.locals["p"]?)) = some (.int 0) := by decide +kernel
  obtain ⟨environment, htypes⟩ : ∃ environment, Program.missingPair.typeCheck = .ok environment :=
    Except.exists_ok_of_isSome (by decide +kernel)
  obtain ⟨hfits, hindex⟩ := Program.variables_keep_their_types hsurface htypes 20
  obtain ⟨r, hrun, hp⟩ := Option.bind_eq_some_iff.mp hzero
  exact ⟨hsurface, environment, htypes, hfits, hindex, r.2.locals, r.2.heap,
    .ends .refl ⟨r.1, Except.toOption_eq_some.mp hrun⟩, hp⟩

end TupleLang
