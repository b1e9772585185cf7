import TupleLang.Proofs.SettledTypes
import TupleLang.Proofs.TypedValues

/-!
# Runs of typed programs

A program that follows the typing rules runs as its types say: each variable holds a value of its
type, each expression gives one, and each function returns one.  The checker lets two things pass
that come out only while a program runs, so a run may end in an error after all: a variable may be
read that was never assigned, and a function may run off its end.  `EvalError.IsExcused` says which
errors are left once a `Typing.Discipline` rules out one or the other.

`Typing.Safe` is the form in which this is carried through the interpreter: a computation ends in a
good state or in an error that is excused.  `Typing.Settled.safe` follows the interpreter through
the tree, under the assumption that what it enters anew is safe, and `Typing.safe_enter` discharges
the assumption by induction on the depth.
-/

namespace TupleLang

open Interpreter (State Eval Entry Completion Task spend invalid condition newTuple bindArguments
  call functionTable)

open Typing (Discipline Scope Settled ProgramSettled)

/-- The errors that may occur in a program that follows the typing rules.  A variable can be found
without a value only if nothing is asked about assignments, and a value of a wrong type can turn up
only if nothing is asked about returns. -/
def EvalError.IsExcused (discipline : Discipline) : EvalError → Prop
  | .outOfFuel _ => True
  | .unboundVariable _ => discipline.assigns = false
  | .invalidOperand _ _ => discipline.returns = false
  | .indexOutOfBounds _ _ => False

namespace Interpreter.Task

/-- What is known after a task, if it passes control on. -/
def learn (known : Name → Bool) : Task → Name → Bool
  | .stmt statement => statement.learn known
  | .block statements => fun name => known name || Stmt.assignsIn name statements
  | _ => known

/-- Whether a task never passes control on. -/
def returns : Task → Bool
  | .stmt statement => statement.returns
  | .block statements => Stmt.returnsIn statements
  | _ => false

end Interpreter.Task

namespace Typing

/-! ## Safe computations -/

/-- From the state, the computation ends with a value and a state of which `post` holds, or in an
error that is excused. -/
def Safe {α : Type} (discipline : Discipline) (computation : Eval α) (s : State)
    (post : α → State → Prop) : Prop :=
  match computation s with
  | .ok (a, s') => post a s'
  | .error error => error.IsExcused discipline

section Safe

variable {α β : Type} {discipline : Discipline} {s : State}

/-- Safe steps one after the other. -/
theorem Safe.bind {x : Eval α} {f : α → Eval β} {post : α → State → Prop}
    {post' : β → State → Prop} (hx : Safe discipline x s post)
    (hf : ∀ a s', post a s' → Safe discipline (f a) s' post') :
    Safe discipline (x >>= f) s post' := by
  unfold Safe at hx
  cases hresult : x s with
  | error error =>
    rw [hresult] at hx
    have hbind : (x >>= f) s = .error error := by
      change (x s >>= fun p => f p.1 p.2) = _
      rw [hresult]
      rfl
    rw [Safe, hbind]
    exact hx
  | ok p =>
    rw [hresult] at hx
    rw [Safe, Stateful.bind_of_ok hresult]
    exact hf p.1 p.2 hx

/-- Less may be promised. -/
theorem Safe.mono {x : Eval α} {post post' : α → State → Prop} (hx : Safe discipline x s post)
    (h : ∀ a s', post a s' → post' a s') : Safe discipline x s post' := by
  unfold Safe at hx ⊢
  split
  · rename_i a s' hresult
    rw [hresult] at hx
    exact h a s' hx
  · rename_i error hresult
    rw [hresult] at hx
    exact hx

/-- What holds of the end of a safe computation. -/
theorem Safe.of_eq_ok {x : Eval α} {post : α → State → Prop} {a : α} {s' : State}
    (hx : Safe discipline x s post) (h : x s = .ok (a, s')) : post a s' := by
  rw [Safe, h] at hx
  exact hx

end Safe

/-! ## Typed states -/

variable {discipline : Discipline} {functions : Std.ExtTreeMap Name Ty} {scope : Scope functions}
  {known learned learned' : Name → Bool} {returns returns' : Bool} {s s₁ s' : State}

/-- The value is of the type, or it is a zero and functions may run off their ends. -/
abbrev ValueFits (discipline : Discipline) (functions : Std.ExtTreeMap Name Ty) (heap : Heap)
    (value : Value) (ty : Ty) : Prop :=
  value.Fits (!discipline.returns) functions heap ty

/-- The variables of the state hold values of their types. -/
def Typed (discipline : Discipline) (scope : Scope functions) (s : State) : Prop :=
  ∀ (name : Name) (value : Value), s.locals[name]? = some value →
    ∃ ty, scope.types[name]? = some ty ∧ ValueFits discipline functions s.heap value ty

/-- The state is as a task needs it: its variables hold values of their types, and the names that
are known stand for something, if that is asked for. -/
structure Ready (discipline : Discipline) (scope : Scope functions) (known : Name → Bool)
    (s : State) : Prop where
  typed : Typed discipline scope s
  binds : discipline.assigns = true → ∀ name, known name = true →
    s.locals.contains name = true ∨ functions.contains name = true

/-- What holds when expressions have been evaluated: nothing is forgotten, and what they give is
good. -/
structure Evaluated (s : State) (good : Heap → Prop) (s' : State) : Prop where
  locals_eq : s'.locals = s.locals
  grows : s.heap.Grows s'.heap
  good : good s'.heap

/-- What holds when statements have been run.  If they pass control on, then what they certainly
assign has a value; if they return, then a value of the right type. -/
structure Executed (discipline : Discipline) (scope : Scope functions) (learned : Name → Bool)
    (returns : Bool) (s : State) (completion : Completion) (s' : State) : Prop where
  grows : s.heap.Grows s'.heap
  typed : Typed discipline scope s'
  next : completion = .next → returns = false ∧ Ready discipline scope learned s'
  returned : ∀ value, completion = .returned value →
    ∃ ty, scope.output? = some ty ∧ ValueFits discipline functions s'.heap value ty

variable {good : Heap → Prop} {value : Value} {completion : Completion} {values : List Value}
  {ty : Ty} {operator : Operator} {name : Name} {f : Function}

theorem Evaluated.trans {good' : Heap → Prop} (h : Evaluated s good s₁)
    (h' : Evaluated s₁ good' s') : Evaluated s good' s' :=
  ⟨h'.locals_eq.trans h.locals_eq, h.grows.trans h'.grows, h'.good⟩

/-- Evaluation keeps the variables typed. -/
theorem Typed.evaluated (h : Typed discipline scope s) (h' : Evaluated s good s') :
    Typed discipline scope s' := by
  intro name value hvalue
  obtain ⟨ty, hty, hfits⟩ := h name value (h'.locals_eq ▸ hvalue)
  exact ⟨ty, hty, hfits.mono h'.grows⟩

/-- Expressions leave the state ready for whatever it was ready for. -/
theorem Ready.evaluated (h : Ready discipline scope known s) (h' : Evaluated s good s') :
    Ready discipline scope known s' :=
  ⟨h.typed.evaluated h', fun ha name hname => h'.locals_eq ▸ h.binds ha name hname⟩

/-- Fewer variables may be learned. -/
theorem Ready.weaken (h : Ready discipline scope learned s)
    (hlearned : ∀ name, learned' name = true → learned name = true) :
    Ready discipline scope learned' s :=
  ⟨h.typed, fun ha name hname => h.binds ha name (hlearned name hname)⟩

/-- A variable gets a value of its type. -/
theorem Ready.insert {target : Name} (h : Ready discipline scope known s)
    (htarget : scope.types[target]? = some ty)
    (hvalue : ValueFits discipline functions s.heap value ty) :
    Ready discipline scope (fun name => known name || target == name)
      { s with locals := s.locals.insert target value } := by
  refine ⟨fun name found hfound => ?_, fun ha name hname => ?_⟩
  · rw [Std.ExtTreeMap.getElem?_insert] at hfound
    split at hfound
    · rename_i he
      cases hfound
      rw [Std.LawfulEqCmp.compare_eq_iff_eq] at he
      exact ⟨ty, he ▸ htarget, hvalue⟩
    · exact h.typed name found hfound
  · rw [Std.ExtTreeMap.contains_insert, Bool.or_eq_true]
    rcases Bool.or_eq_true _ _ ▸ hname with hknown | he
    · exact (h.binds ha name hknown).imp_left .inr
    · exact .inl (.inl (by simpa using he))

theorem Executed.of_grows (hgrows : s.heap.Grows s₁.heap)
    (h : Executed discipline scope learned returns s₁ completion s') :
    Executed discipline scope learned returns s completion s' :=
  ⟨hgrows.trans h.grows, h.typed, h.next, h.returned⟩

theorem Executed.weaken (h : Executed discipline scope learned returns s completion s')
    (hlearned : ∀ name, learned' name = true → learned name = true)
    (hreturns : returns = false → returns' = false) :
    Executed discipline scope learned' returns' s completion s' :=
  ⟨h.grows, h.typed, fun hnext => ⟨hreturns (h.next hnext).1, (h.next hnext).2.weaken hlearned⟩,
    h.returned⟩

/-- A statement passes control on in a state that is ready. -/
theorem Executed.of_ready (hgrows : s.heap.Grows s'.heap) (h : Ready discipline scope learned s') :
    Executed discipline scope learned false s .next s' :=
  ⟨hgrows, h.typed, fun _ => ⟨rfl, h⟩, fun _ hreturned => by cases hreturned⟩

/-- A statement returns a value of the right type. -/
theorem Executed.of_returned (hgrows : s.heap.Grows s'.heap) (htyped : Typed discipline scope s')
    (houtput : scope.output? = some ty) (hvalue : ValueFits discipline functions s'.heap value ty) :
    Executed discipline scope learned returns s (.returned value) s' := by
  refine ⟨hgrows, htyped, fun hnext => ?_, fun found hfound => ?_⟩
  · cases hnext
  · cases hfound
    exact ⟨ty, houtput, hvalue⟩

/-- What was known before statements is known after them. -/
theorem Executed.readyAgain {ss : List Stmt}
    (h : Executed discipline scope ((Task.block ss).learn known) returns s .next s') :
    Ready discipline scope known s' :=
  (h.next rfl).2.weaken fun name hname => by simp [Task.learn, hname]

/-! ## Steps of the interpreter -/

variable {context : Interpreter.Context} {enter : Entry → Eval Completion}

/-- The first step of a statement takes a unit of the budget and nothing else. -/
theorem safe_spend (context : Interpreter.Context) :
    Safe discipline (spend context) s fun _ => Evaluated s fun _ => True := by
  unfold Safe spend
  rw [Stateful.bind_of_ok (Stateful.get_eq_ok s)]
  cases s.fuel with
  | zero => exact trivial
  | succ fuel => exact ⟨rfl, .refl _, trivial⟩

/-- A condition is a truth value, or it is refused. -/
theorem safe_condition (h : ValueFits discipline functions s.heap value .bool) :
    Safe discipline (condition value) s fun _ => Evaluated s fun _ => True := by
  rcases h.bool_or_zero with ⟨truth, rfl⟩ | ⟨hzeros, rfl⟩
  · exact ⟨rfl, .refl _, trivial⟩
  · exact (Bool.not_eq_true' _).mp hzeros

/-- The result of an operator that gives a value of a type or refuses a zero. -/
theorem safe_operator
    (h : (∃ value, Value.primitive s.heap operator values = .ok value ∧
        ValueFits discipline functions s.heap value ty) ∨
      (!discipline.returns) = true ∧ ∃ shown, Value.primitive s.heap operator values =
        .error (.invalidOperand operator.name shown)) :
    Safe discipline (do Value.primitive (← get).heap operator values) s fun value =>
      Evaluated s fun heap => ValueFits discipline functions heap value ty := by
  rw [Safe, Stateful.bind_of_ok (Stateful.get_eq_ok s)]
  rcases h with ⟨value, hvalue, hfits⟩ | ⟨hzeros, shown, herror⟩
  · rw [hvalue]
    exact ⟨rfl, .refl _, hfits⟩
  · rw [herror]
    exact (Bool.not_eq_true' _).mp hzeros

/-- A new tuple has a type if its fields have. -/
theorem safe_newTuple {tys : List Ty}
    (h : List.Forall₂ (ValueFits discipline functions s.heap) values tys) :
    Safe discipline (newTuple values) s fun value =>
      Evaluated s fun heap => ValueFits discipline functions heap value (.tuple tys) := by
  have hgrows := Heap.grows_push s.heap values
  refine ⟨rfl, hgrows, .tuple Array.getElem?_push_size h.length_eq fun i field ty hfield hty => ?_⟩
  obtain ⟨hi, rfl⟩ := List.getElem?_eq_some_iff.mp hfield
  obtain ⟨hi', rfl⟩ := List.getElem?_eq_some_iff.mp hty
  exact (h.get hi hi').mono hgrows

/-- The variables of a call hold its arguments. -/
theorem fits_of_bindArguments {heap : Heap} {parameters : List (Name × Ty)}
    (h : List.Forall₂ (ValueFits discipline functions heap) values (parameters.map Prod.snd))
    (hvalue : (bindArguments (parameters.map Prod.fst) values)[name]? = some value) :
    ∃ ty, (name, ty) ∈ parameters ∧ ValueFits discipline functions heap value ty := by
  rcases Interpreter.getElem?_foldl_insert hvalue with hempty | ⟨pair, hmem, rfl, rfl⟩
  · simp at hempty
  · obtain ⟨i, hi, rfl⟩ := List.mem_iff_getElem.mp hmem
    rw [List.length_zip, List.length_map, Nat.lt_min] at hi
    have hfits := h.get hi.2 (by simpa using hi.1)
    have hmem : parameters[i] ∈ parameters := List.getElem_mem hi.1
    refine ⟨parameters[i].2, ?_, by simpa using hfits⟩
    rw [List.getElem_zip, List.getElem_map]
    exact hmem

/-- Each parameter of a call has an argument. -/
theorem contains_bindArguments {parameters : List Name}
    (hlength : values.length = parameters.length) (hname : parameters.contains name = true) :
    (bindArguments parameters values).contains name = true := by
  have hcontains : (bindArguments parameters values).contains name =
      ((∅ : Interpreter.Locals).contains name ||
        ((parameters.zip values).map Prod.fst).contains name) :=
    Interpreter.contains_foldl_insert Prod.fst Prod.snd (parameters.zip values) name
  rw [hcontains, List.map_fst_zip (Nat.le_of_eq hlength.symm), hname, Bool.or_true]

/-- What is entered anew is safe. -/
def EntersSafely (discipline : Discipline) (functions : Std.ExtTreeMap Name Ty)
    (enter : Entry → Eval Completion) : Prop :=
  ∀ (scope : Scope functions) (known : Name → Bool) (entry : Entry) (s : State),
    Settled discipline scope known entry.task .fine → Ready discipline scope known s →
    Safe discipline (enter entry) s
      (Executed discipline scope (entry.task.learn known) entry.task.returns s)

variable {program : Program} {environment : TypeEnvironment}

/-- The arguments of a call make the variables of the function ready for its body. -/
theorem FunctionSettled.ready (h : FunctionSettled discipline scope f)
    (hvalues : List.Forall₂ (ValueFits discipline functions s.heap) values
      (f.parameters.map Prod.snd)) :
    Ready discipline scope (fun name => f.hasParameter name || functions.contains name)
      { s with locals := bindArguments (f.parameters.map Prod.fst) values } := by
  refine ⟨fun name value hvalue => ?_, fun _ name hname => ?_⟩
  · obtain ⟨ty, hmem, hfits⟩ := fits_of_bindArguments hvalues hvalue
    exact ⟨ty, h.parameters _ hmem, hfits⟩
  · rcases Bool.or_eq_true _ _ ▸ hname with hparameter | hcontains
    · exact .inl (contains_bindArguments (by simpa using hvalues.length_eq) hparameter)
    · exact .inr hcontains

/-- A function gives a value of the type that it returns.  At its end it gives a zero, which is as
good as any value unless functions have to return. -/
theorem FunctionSettled.result (h : FunctionSettled discipline scope f)
    (h' : Executed discipline scope learned (Stmt.returnsIn f.body) s completion s') :
    ValueFits discipline functions s'.heap completion.result f.output := by
  cases completion with
  | returned value =>
    obtain ⟨ty, houtput, hfits⟩ := h'.returned value rfl
    rw [h.output_eq] at houtput
    cases houtput
    exact hfits
  | next =>
    cases hreturns : discipline.returns with
    | false => exact .zero (by rw [hreturns]; rfl) _
    | true =>
      rcases h.returns hreturns with hint | hbody
      · rw [hint]
        exact .int 0
      · exact absurd ((h'.next rfl).1.symm.trans hbody) Bool.false_ne_true

/-! ## Through the tree -/

/-- The task is safe in the state. -/
def TaskSafe (discipline : Discipline) (scope : Scope functions) (known : Name → Bool)
    (context : Interpreter.Context) (enter : Entry → Eval Completion) (s : State) :
    Task → Verdict → Prop
  | .expr e, .ty ty => Safe discipline (e.eval context enter) s fun value =>
    Evaluated s fun heap => ValueFits discipline functions heap value ty
  | .exprs es, .tys tys => Safe discipline (Expr.evalAll context enter es) s fun values =>
    Evaluated s fun heap => List.Forall₂ (ValueFits discipline functions heap) values tys
  | .stmt statement, .fine => Safe discipline (statement.exec context enter) s
    (Executed discipline scope (statement.learn known) statement.returns s)
  | .block ss, .fine => Safe discipline (Stmt.execBlock context enter ss) s
    (Executed discipline scope ((Task.block ss).learn known) (Stmt.returnsIn ss) s)
  | .turn test body, .fine => Safe discipline (enter (.turn test body)) s
    (Executed discipline scope known false s)
  | _, _ => False

/-- An operator that looks at all its operands evaluates them first. -/
theorem eval_of_strict {operands : List Expr} (hstrict : operator.isShortCircuiting = false) :
    (Expr.primitive operator operands).eval context enter =
      (do
        let values ← Expr.evalAll context enter operands
        Value.primitive (← get).heap operator values) := by
  rw [Expr.eval]
  · rintro _ _ rfl
    cases hstrict
  · rintro _ _ rfl
    cases hstrict

/-- What goes on by a condition is safe if it is so in both cases. -/
theorem Safe.test {β : Type} {e : Expr} {f : Bool → Eval β} {post : β → State → Prop}
    (he : TaskSafe discipline scope known context enter s (.expr e) (.ty .bool))
    (hf : ∀ truth s', Evaluated s (fun _ => True) s' → Safe discipline (f truth) s' post) :
    Safe discipline (e.eval context enter >>= fun value => condition value >>= f) s post := by
  refine Safe.bind he fun value s₁ h₁ => ?_
  exact (safe_condition h₁.good).bind fun truth s₂ h₂ => hf truth s₂ (h₁.trans h₂)

section Checked

variable (hprogram : ProgramSettled discipline program environment)
  (hcontext : context.functions = functionTable program)

include hprogram hcontext

/-- A call of a value with a function type is safe. -/
theorem safe_call (henter : EntersSafely discipline environment.functions enter) {target : Value}
    {tys : List Ty} {ty : Ty}
    (htarget : ValueFits discipline environment.functions s.heap target (.function tys ty))
    (hvalues : List.Forall₂ (ValueFits discipline environment.functions s.heap) values tys) :
    Safe discipline (call context enter target values) s fun value =>
      Evaluated s fun heap => ValueFits discipline environment.functions heap value ty := by
  rcases htarget.function_or_zero with ⟨name, rfl, hname⟩ | ⟨hzeros, rfl⟩
  · obtain ⟨f, hf, hty⟩ := hprogram.tables.findSource hname
    cases hty
    obtain ⟨scope, -, hfunction⟩ := hprogram.function name f hf
    simp only [call, hcontext, hf]
    rw [Safe, Stateful.bind_of_ok (Stateful.get_eq_ok s), Stateful.bind_of_ok
      (Stateful.modify_eq_ok _ _)]
    refine (henter scope _ (.body f.body) _ hfunction.body (hfunction.ready hvalues)).bind
      fun completion s₁ h₁ => ?_
    have hresult := hfunction.result h₁
    cases completion with
    | returned value => exact ⟨rfl, h₁.grows, hresult⟩
    | next => exact ⟨rfl, h₁.grows, hresult⟩
  · exact (Bool.not_eq_true' _).mp hzeros

/-- A name has a value of its type, or none at all if nothing is asked about assignments. -/
theorem safe_var {scope : Scope environment.functions} {name : Name} {ty : Ty}
    (h : Settled discipline scope known (.expr (.var name)) (.ty ty))
    (hs : Ready discipline scope known s) :
    TaskSafe discipline scope known context enter s (.expr (.var name)) (.ty ty) := by
  have hcontains : context.functions.contains name = environment.functions.contains name := by
    rw [hcontext, hprogram.tables.contains]
  rw [TaskSafe, Safe, Expr.eval, Stateful.bind_of_ok (Stateful.get_eq_ok s), hcontains]
  cases hlocal : s.locals[name]? with
  | some value =>
    obtain ⟨ty', hty', hfits⟩ := hs.typed name value hlocal
    cases h with
    | known hname _ =>
      cases hname.symm.trans hty'
      exact ⟨rfl, .refl _, hfits⟩
    | function hname _ => cases hname.symm.trans hty'
  | none =>
    cases h with
    | known hname hread =>
      -- The name of a function is no variable, so only an unbound variable is left.
      have hfunction : environment.functions.contains name = false := by
        by_contra hcontains
        rw [Bool.not_eq_false] at hcontains
        cases hname.symm.trans (scope.apart hcontains)
      rw [hfunction]
      change discipline.assigns = false
      by_contra hassigns
      rw [Bool.not_eq_false] at hassigns
      rcases hs.binds hassigns name (hread hassigns) with hbound | hcontains
      · rw [Std.ExtTreeMap.contains_eq_isSome_getElem?, hlocal] at hbound
        cases hbound
      · cases hfunction.symm.trans hcontains
    | function hname hfunction =>
      have hcontains : environment.functions.contains name = true := by
        rw [Std.ExtTreeMap.contains_eq_isSome_getElem?, hfunction]
        rfl
      rw [hcontains]
      obtain ⟨f, -, rfl⟩ := hprogram.tables.findSource hfunction
      exact ⟨rfl, .refl _, .function hfunction⟩

/-- Every task that follows the rules is safe in a state that is ready for it. -/
theorem Settled.safe (henter : EntersSafely discipline environment.functions enter)
    {scope : Scope environment.functions} {task : Task} {verdict : Verdict}
    (h : Settled discipline scope known task verdict) (hs : Ready discipline scope known s) :
    TaskSafe discipline scope known context enter s task verdict := by
  induction h generalizing s with
  | known hname hread => exact safe_var hprogram hcontext (.known hname hread) hs
  | function hname hfunction => exact safe_var hprogram hcontext (.function hname hfunction) hs
  | int value => exact ⟨rfl, .refl _, .int value⟩
  | bool value => exact ⟨rfl, .refl _, .bool value⟩
  | @subscript _ tuple index fields _ _ hfield ih =>
    have hvalues : Safe discipline (Expr.evalAll context enter [tuple, .const (.int index)]) s
        fun values => Evaluated s fun heap => ∃ value, values = [value, .int index] ∧
          ValueFits discipline environment.functions heap value (.tuple fields) :=
      Safe.bind (ih hs) fun value s₁ h₁ => ⟨h₁.locals_eq, h₁.grows, value, rfl, h₁.good⟩
    rw [TaskSafe, eval_of_strict rfl]
    refine hvalues.bind fun values s₁ h₁ => ?_
    obtain ⟨value, rfl, hfits⟩ := h₁.good
    exact (safe_operator (hfits.subscript hfield)).mono fun _ _ => h₁.trans
  | @shortCircuit _ operator _ _ hoperator _ _ ihl ihr =>
    cases operator with
    | and =>
      rw [TaskSafe, Expr.eval]
      refine Safe.test (ihl hs) fun left s₁ h₁ => ?_
      cases left with
      | true =>
        refine Safe.test (ihr (hs.evaluated h₁)) fun right s₂ h₂ => ?_
        exact ⟨(h₁.trans h₂).locals_eq, (h₁.trans h₂).grows, .bool right⟩
      | false => exact ⟨h₁.locals_eq, h₁.grows, .bool false⟩
    | or =>
      rw [TaskSafe, Expr.eval]
      refine Safe.test (ihl hs) fun left s₁ h₁ => ?_
      cases left with
      | true => exact ⟨h₁.locals_eq, h₁.grows, .bool true⟩
      | false =>
        refine Safe.test (ihr (hs.evaluated h₁)) fun right s₂ h₂ => ?_
        exact ⟨(h₁.trans h₂).locals_eq, (h₁.trans h₂).grows, .bool right⟩
    | _ => cases hoperator
  | primitive hstrict _ hty ih =>
    rw [TaskSafe, eval_of_strict hstrict]
    refine Safe.bind (ih hs) fun values s₁ h₁ => ?_
    exact (safe_operator (Value.Fits.primitive hstrict h₁.good hty)).mono fun _ _ => h₁.trans
  | call _ _ iht ihs =>
    rw [TaskSafe, Expr.eval]
    refine Safe.bind (iht hs) fun target s₁ h₁ => ?_
    refine Safe.bind (ihs (hs.evaluated h₁)) fun values s₂ h₂ => ?_
    exact (safe_call hprogram hcontext henter (h₁.good.mono h₂.grows) h₂.good).mono
      fun _ _ => (h₁.trans h₂).trans
  | tuple _ ih =>
    rw [TaskSafe, Expr.eval]
    refine Safe.bind (ih hs) fun values s₁ h₁ => ?_
    exact (safe_newTuple h₁.good).mono fun _ _ => h₁.trans
  | exprsNil => exact ⟨rfl, .refl _, .nil⟩
  | exprsCons _ _ ihe ihs =>
    rw [TaskSafe, Expr.evalAll]
    refine Safe.bind (ihe hs) fun value s₁ h₁ => ?_
    refine Safe.bind (ihs (hs.evaluated h₁)) fun values s₂ h₂ => ?_
    exact ⟨(h₁.trans h₂).locals_eq, (h₁.trans h₂).grows, .cons (h₁.good.mono h₂.grows) h₂.good⟩
  | assign htarget _ ih =>
    rw [TaskSafe, Stmt.exec]
    refine (safe_spend context).bind fun _ s₁ h₁ => ?_
    refine Safe.bind (ih (hs.evaluated h₁)) fun value s₂ h₂ => ?_
    exact .of_ready (h₁.trans h₂).grows ((hs.evaluated (h₁.trans h₂)).insert htarget h₂.good)
  | print _ hprintable ih =>
    rw [TaskSafe, Stmt.exec]
    refine (safe_spend context).bind fun _ s₁ h₁ => ?_
    refine Safe.bind (ih (hs.evaluated h₁)) fun value s₂ h₂ => ?_
    obtain ⟨word, hword⟩ := h₂.good.exists_word hprintable
    rw [hword]
    have hready : Ready discipline scope _ { s₂ with output := s₂.output.push word } :=
      ⟨(hs.evaluated (h₁.trans h₂)).typed, (hs.evaluated (h₁.trans h₂)).binds⟩
    refine .of_ready (h₁.trans h₂).grows (hready.weaken ?_)
    simp [Stmt.learn, Stmt.assigns]
  | ifElse _ _ _ ihc ihp ihn =>
    rw [TaskSafe, Stmt.exec]
    refine (safe_spend context).bind fun _ s₁ h₁ => ?_
    refine Safe.test (ihc (hs.evaluated h₁)) fun truth s₂ h₂ => ?_
    have hs₂ := hs.evaluated (h₁.trans h₂)
    cases truth with
    | true =>
      refine Safe.mono (ihp hs₂) fun completion s₃ h₃ => ?_
      refine (h₃.of_grows (h₁.trans h₂).grows).weaken (fun name => ?_) fun hnext => ?_
      · simp only [Stmt.learn, Stmt.assigns, Task.learn, Bool.or_eq_true, Bool.and_eq_true]
        exact Or.imp_right And.left
      · rw [Stmt.returns, hnext, Bool.false_and]
    | false =>
      refine Safe.mono (ihn hs₂) fun completion s₃ h₃ => ?_
      refine (h₃.of_grows (h₁.trans h₂).grows).weaken (fun name => ?_) fun hnext => ?_
      · simp only [Stmt.learn, Stmt.assigns, Task.learn, Bool.or_eq_true, Bool.and_eq_true]
        exact Or.imp_right And.right
      · rw [Stmt.returns, hnext, Bool.and_false]
  | @whileDo known test body ht _ =>
    rw [TaskSafe, Stmt.exec]
    refine (safe_spend context).bind fun _ s₁ h₁ => ?_
    refine (henter scope known (.turn test body) s₁ ht (hs.evaluated h₁)).mono fun _ _ h₂ => ?_
    refine (h₂.of_grows h₁.grows).weaken (fun name => ?_) fun _ => rfl
    simp [Stmt.learn, Stmt.assigns, Entry.task, Task.learn]
  | ret houtput _ ih =>
    rw [TaskSafe, Stmt.exec]
    refine (safe_spend context).bind fun _ s₁ h₁ => ?_
    refine Safe.bind (ih (hs.evaluated h₁)) fun value s₂ h₂ => ?_
    exact .of_returned (h₁.trans h₂).grows (hs.typed.evaluated (h₁.trans h₂)) houtput h₂.good
  | define =>
    rw [TaskSafe, Stmt.exec]
    refine (safe_spend context).bind fun _ s₁ h₁ => ?_
    refine .of_ready h₁.grows ((hs.evaluated h₁).weaken ?_)
    simp [Stmt.learn, Stmt.assigns]
  | blockNil =>
    refine .of_ready (.refl _) (hs.weaken ?_)
    simp [Task.learn, Stmt.assignsIn]
  | blockCons _ _ ihs ihr =>
    rw [TaskSafe, Stmt.execBlock]
    refine Safe.bind (ihs hs) fun completion s₁ h₁ => ?_
    cases completion with
    | returned value =>
      obtain ⟨ty, houtput, hfits⟩ := h₁.returned value rfl
      exact .of_returned h₁.grows h₁.typed houtput hfits
    | next =>
      obtain ⟨hstatement, hs₁⟩ := h₁.next rfl
      refine Safe.mono (ihr hs₁) fun completion s₂ h₂ => ?_
      refine (h₂.of_grows h₁.grows).weaken (fun name hname => ?_) fun hrest => ?_
      · simpa only [Task.learn, Stmt.learn, Stmt.assignsIn, Bool.or_assoc] using hname
      · rw [Stmt.returnsIn, hstatement, hrest, Bool.or_false]
  | @turn known test body hc hb _ _ => exact henter scope known (.turn test body) s (.turn hc hb) hs

/-- What is entered anew is safe, however deep. -/
theorem safe_enter (depth : Nat) :
    EntersSafely discipline environment.functions (Interpreter.enter context depth) := by
  induction depth with
  | zero => exact fun _ _ _ _ _ _ => trivial
  | succ depth ih =>
    intro scope known entry s hentry hs
    cases entry with
    | body statements => exact hentry.safe hprogram hcontext ih hs
    | turn test body =>
      cases hentry with
      | turn hc hb =>
        rw [Interpreter.enter]
        refine Safe.test (hc.safe hprogram hcontext ih hs) fun truth s₁ h₁ => ?_
        have hs₁ := hs.evaluated h₁
        cases truth with
        | false => exact .of_ready h₁.grows hs₁
        | true =>
          refine Safe.bind (hb.safe hprogram hcontext ih hs₁) fun completion s₂ h₂ => ?_
          cases completion with
          | returned value =>
            obtain ⟨ty, houtput, hfits⟩ := h₂.returned value rfl
            exact .of_returned (h₁.grows.trans h₂.grows) h₂.typed houtput hfits
          | next =>
            refine (safe_spend context).bind fun _ s₃ h₃ => ?_
            refine (ih scope known (.turn test body) s₃ (.turn hc hb)
              (h₂.readyAgain.evaluated h₃)).mono fun _ _ h₄ => ?_
            exact h₄.of_grows (h₁.grows.trans (h₂.grows.trans h₃.grows))

end Checked

/-- Before a program begins, no variable has a value. -/
theorem ready_start {scope : Scope environment.functions} (fuel : Nat) :
    Ready discipline scope environment.functions.contains { fuel } :=
  ⟨fun _ _ hvalue => by simp at hvalue, fun _ _ hname => .inr hname⟩

/-- A program that follows the rules ends well, or in an error that is excused. -/
theorem ProgramSettled.isExcused (h : ProgramSettled discipline program environment) {budget : Nat}
    {error : EvalError} (herror : program.interpret budget = .error error) :
    error.IsExcused discipline := by
  obtain ⟨scope, -, htopLevel⟩ := h.topLevel
  let context : Interpreter.Context := ⟨functionTable program, budget⟩
  have hcontext : context.functions = functionTable program := rfl
  have hsafe := htopLevel.safe h hcontext (safe_enter h hcontext (2 * budget + 2))
    (ready_start budget)
  rw [TaskSafe, Safe] at hsafe
  unfold Program.interpret at herror
  cases hrun : Stmt.execBlock context (Interpreter.enter context (2 * budget + 2))
      program.statements { fuel := budget } with
  | ok result =>
    change (Stmt.execBlock context _ _ _ >>= _) = _ at herror
    rw [hrun] at herror
    cases herror
  | error found =>
    change (Stmt.execBlock context _ _ _ >>= _) = _ at herror
    rw [hrun] at herror hsafe
    cases herror
    exact hsafe

end Typing

/-- An accepted program reads no variable without a value, provided that every variable is assigned
on every path before it is read, and meets no value of a wrong type, provided that every function
returns on every path. -/
theorem Program.accepted_does_not_go_wrong {program : Program} {environment : TypeEnvironment}
    (hsurface : program.isSurface = true) (htypes : program.typeCheck = .ok environment)
    (budget : Nat) :
    (program.assignsFirst = true →
        ∀ name, program.interpret budget ≠ .error (.unboundVariable name)) ∧
      (program.alwaysReturns = true → ∀ operation shown,
        program.interpret budget ≠ .error (.invalidOperand operation shown)) := by
  have hchecks := Typing.checkProgram_eq_ok.mp htypes
  constructor
  · intro hassigns name herror
    have hsettled : ProgramSettled { assigns := true } program environment :=
      hchecks.settled hsurface (fun h => by cases h) fun _ => hassigns
    cases hsettled.isExcused herror
  · intro hreturns operation shown herror
    have hsettled : ProgramSettled { returns := true } program environment :=
      hchecks.settled hsurface (fun _ => hreturns) fun h => by cases h
    cases hsettled.isExcused herror

/-- A loop that assigns in both branches of a conditional, and a function that returns in both. -/
def Program.branchingSums : Program := ⟨[
  .define "sum" [("n", .int)] .int
    [.ifElse (.primitive .gt [.var "n", .const (.int 0)])
      [.ret (.primitive .add [.var "n",
        .call (.var "sum") [.primitive .sub [.var "n", .const (.int 1)]]])]
      [.ret (.const (.int 0))]],
  .assign "i" (.const (.int 0)),
  .whileDo (.primitive .lt [.var "i", .const (.int 3)])
    [.ifElse (.primitive .gt [.call (.var "sum") [.var "i"], .const (.int 1)])
      [.assign "large" (.const (.bool true))] [.assign "large" (.const (.bool false))],
    .print (.var "large"),
    .assign "i" (.primitive .add [.var "i", .const (.int 1)])]]⟩

/-- A program with branches and sums. -/
theorem Program.accepted_does_not_go_wrong_branchingSums :
    Program.branchingSums.isSurface = true ∧
      (∃ environment, Program.branchingSums.typeCheck = .ok environment) ∧
      Program.branchingSums.assignsFirst = true ∧ Program.branchingSums.alwaysReturns = true ∧
      (∀ name, Program.branchingSums.interpret 60 ≠ .error (.unboundVariable name)) ∧
      ∀ operation shown,
        Program.branchingSums.interpret 60 ≠ .error (.invalidOperand operation shown) := by
  have hsurface : Program.branchingSums.isSurface = true := by decide
  have hassigns : Program.branchingSums.assignsFirst = true := by decide
  have hreturns : Program.branchingSums.alwaysReturns = true := by decide
  obtain ⟨environment, htypes⟩ :
      ∃ environment, Program.branchingSums.typeCheck = .ok environment :=
    Except.exists_ok_of_isSome (by decide +kernel)
  obtain ⟨hbound, hvalid⟩ := Program.accepted_does_not_go_wrong hsurface htypes 60
  exact ⟨hsurface, ⟨environment, htypes⟩, hassigns, hreturns, hbound hassigns, hvalid hreturns⟩

/-- Only one branch assigns the variable, and the other one is taken. -/
def Program.skippedAssignment : Program := ⟨[
  .assign "c" (.const (.bool false)),
  .ifElse (.var "c") [.assign "x" (.const (.int 1))] [],
  .assign "y" (.var "x")]⟩

/-- The function has to return a truth value, and its body is empty. -/
def Program.missingTruth : Program := ⟨[
  .define "f" [] .bool [],
  .ifElse (.call (.var "f") []) [] []]⟩

/-- Neither of the two conditions can be left out. -/
theorem Program.accepted_goes_wrong :
    (Program.skippedAssignment.isSurface = true ∧
        (∃ environment, Program.skippedAssignment.typeCheck = .ok environment) ∧
        Program.skippedAssignment.interpret 100 = .error (.unboundVariable "x")) ∧
      Program.missingTruth.isSurface = true ∧
        (∃ environment, Program.missingTruth.typeCheck = .ok environment) ∧
        Program.missingTruth.interpret 100 = .error (.invalidOperand "condition" "0") := by
  exact ⟨⟨by decide, Except.exists_ok_of_isSome (by decide +kernel), by decide +kernel⟩,
    by decide, Except.exists_ok_of_isSome (by decide +kernel), by decide +kernel⟩

end TupleLang
