import TupleLang.Proofs.Evaluation
import TupleLang.Proofs.Stateful

/-!
# The interpreter and its runs

This file proves that `Program.interpret` and `Interpreter.Runs` agree.

From left to right, `Interpreter.eval_sound` follows the interpreter through the tree, under the
assumption that what it enters anew runs as the relation says, and `Interpreter.enter_sound`
discharges the assumption by induction on the depth.

From right to left, `Interpreter.Runs.finishes` reads the depth and the cost of a run off its
derivation.  The cost is exact: a run that finds `fuel + cost` units leaves `fuel` of them, so the
runs of two parts can be put one after the other without any monotonicity.
-/

namespace TupleLang

open Stateful

namespace Interpreter

/-! ## From the interpreter to runs -/

variable {value : Value} {s s' : State} {α : Type} {r : Unit × State} {tuple : Name} {index : Nat}
  {values : List Value}

/-- Refusing a value never succeeds. -/
theorem invalid_ne_ok {operation : String} {r : α × State} : invalid operation value s ≠ .ok r :=
  nofun

/-- Taking a unit from the budget leaves the store as it is. -/
theorem spend_eq_ok {context : Context} (h : spend context s = .ok r) : r.2.store = s.store := by
  unfold spend at h
  obtain ⟨state, s₁, hget, h⟩ := bind_eq_ok.mp h
  cases hget
  cases hfuel : s.fuel with
  | zero => simp [hfuel] at h; cases h
  | succ fuel =>
    simp only [hfuel] at h
    cases h
    rfl

/-- Conditions are truth values. -/
theorem condition_eq_ok {r : Bool × State} (h : condition value s = .ok r) :
    value = .bool r.1 ∧ r.2 = s := by
  unfold condition at h
  obtain ⟨state, s₁, hget, h⟩ := bind_eq_ok.mp h
  cases hget
  cases value with
  | bool b => cases h; exact ⟨rfl, rfl⟩
  | int _ => cases h
  | tuple _ => cases h
  | function _ => cases h

/-- If a computation goes on with a condition, what it takes as the condition is a truth value. -/
theorem bind_condition_eq_ok {x : Eval Value} {f : Bool → Eval α} {r : α × State}
    (h : (x >>= fun value => condition value >>= f) s = .ok r) :
    ∃ truth s₁, x s = .ok (.bool truth, s₁) ∧ f truth s₁ = .ok r := by
  obtain ⟨value, s₁, hvalue, h⟩ := bind_eq_ok.mp h
  obtain ⟨truth, s₂, hcondition, h⟩ := bind_eq_ok.mp h
  obtain ⟨rfl, rfl⟩ := condition_eq_ok hcondition
  exact ⟨truth, _, hvalue, h⟩

/-- The task that is entered anew. -/
def Entry.task : Entry → Task
  | .body statements => .block statements
  | .turn condition statements => .turn condition statements

/-- What is entered anew runs as the relation says. -/
def EntersSoundly (context : Context) (enter : Entry → Eval Completion) : Prop :=
  ∀ entry s c s', enter entry s = .ok (c, s') →
    Runs false context.functions entry.task s.store (.ended c) s'.store

variable {context : Context} {enter : Entry → Eval Completion}

/-- A call that returned entered a function. -/
theorem call_eq_ok (henter : EntersSoundly context enter) {target : Value} {arguments : List Value}
    {result : Value} (h : call context enter target arguments s = .ok (result, s')) :
    ∃ name function completion, ∃ σ : Store, target = .function name ∧
      context.functions[name]? = some function ∧
      Runs false context.functions (.block function.body)
        { s.store with locals := bindArguments (function.parameters.map Prod.fst) arguments }
        (.ended completion) σ ∧
      result = completion.result ∧ s'.store = { σ with locals := s.locals } := by
  cases target with
  | int _ | bool _ | tuple _ => exact absurd h invalid_ne_ok
  | function name =>
    simp only [call] at h
    cases hfunction : context.functions[name]? with
    | none => rw [hfunction] at h; cases h
    | some function =>
      rw [hfunction] at h
      obtain ⟨s₀, s₁, hget, h⟩ := bind_eq_ok.mp h
      cases hget
      obtain ⟨_, s₂, hmodify, h⟩ := bind_eq_ok.mp h
      cases hmodify
      obtain ⟨completion, s₃, hbody, h⟩ := bind_eq_ok.mp h
      obtain ⟨_, s₄, hrestore, h⟩ := bind_eq_ok.mp h
      cases hrestore
      refine ⟨name, function, completion, s₃.store, rfl, hfunction, henter _ _ _ _ hbody, ?_⟩
      cases completion <;> cases h <;> exact ⟨rfl, rfl⟩

/-- A field that was set is one of a tuple. -/
theorem setField_eq_ok (h : setField tuple index value s = .ok r) :
    ∃ address, s.locals[tuple]? = some (.tuple address) ∧
      index < (s.heap.fields address).length ∧
      r.2.store = { s.store with
        heap := s.heap.setIfInBounds address ((s.heap.fields address).set index value) } := by
  unfold setField at h
  obtain ⟨s₀, s₁, hget, h⟩ := bind_eq_ok.mp h
  cases hget
  cases htuple : s.locals[tuple]? with
  | none => rw [htuple] at h; cases h
  | some found =>
    rw [htuple] at h
    cases found with
    | int _ | bool _ | function _ => exact absurd h invalid_ne_ok
    | tuple address =>
      simp only at h
      by_cases hindex : index < (s.heap.fields address).length
      · rw [if_pos hindex] at h
        cases h
        exact ⟨address, rfl, hindex, rfl⟩
      · rw [if_neg hindex] at h
        cases h

/-- A list of expressions has as many values. -/
theorem length_of_evalAll {expressions : List Expr}
    (h : Expr.evalAll context enter expressions s = .ok (values, s')) :
    values.length = expressions.length := by
  induction expressions generalizing s values with
  | nil =>
    rw [Expr.evalAll] at h
    cases h
    rfl
  | cons expression expressions ih =>
    rw [Expr.evalAll] at h
    rw [bind₂_eq_ok] at h
    obtain ⟨value, s₁, rest, _, hrest, rfl⟩ := h
    exact congrArg (· + 1) (ih hrest)

/-- An operator that may skip its right operand is not applied to a list of any other length. -/
theorem isShortCircuiting_of_primitive {heap : Heap} {operator : Operator}
    (h : Value.primitive heap operator values = .ok value) (hlength : ∀ a b, values ≠ [a, b]) :
    operator.isShortCircuiting = false := by
  cases operator <;> try rfl
  all_goals
    unfold Value.primitive at h
    split at h <;> simp_all

/-- Evaluation and execution run as the relation says, if what they enter anew does. -/
theorem eval_sound (henter : EntersSoundly context enter) :
    (∀ e s v s', Expr.eval context enter e s = .ok (v, s') →
      Runs false context.functions (.expr e) s.store (.value v) s'.store) ∧
    (∀ ss s c s', Stmt.execBlock context enter ss s = .ok (c, s') →
      Runs false context.functions (.block ss) s.store (.ended c) s'.store) ∧
    (∀ st s c s', Stmt.exec context enter st s = .ok (c, s') →
      Runs false context.functions (.stmt st) s.store (.ended c) s'.store) ∧
    (∀ es s vs s', Expr.evalAll context enter es s = .ok (vs, s') →
      Runs false context.functions (.exprs es) s.store (.values vs) s'.store) := by
  -- the induction follows the evaluator; loops and calls enter anew, by `henter`
  refine Expr.eval.mutual_induct
    (fun e => ∀ s v s', Expr.eval context enter e s = .ok (v, s') →
      Runs false context.functions (.expr e) s.store (.value v) s'.store)
    (fun ss => ∀ s c s', Stmt.execBlock context enter ss s = .ok (c, s') →
      Runs false context.functions (.block ss) s.store (.ended c) s'.store)
    (fun st => ∀ s c s', Stmt.exec context enter st s = .ok (c, s') →
      Runs false context.functions (.stmt st) s.store (.ended c) s'.store)
    (fun es => ∀ s vs s', Expr.evalAll context enter es s = .ok (vs, s') →
      Runs false context.functions (.exprs es) s.store (.values vs) s'.store)
    ?var ?int ?bool ?and ?or ?primitive ?call ?tuple ?begin ?global ?allocate ?allocateOther
    ?assign ?print ?ifElse ?whileDo ?ret ?define ?collect ?setField ?exprsNil ?exprsCons ?blockNil
    ?blockCons
  case var =>
    intro name s v s' h
    rw [Expr.eval] at h
    obtain ⟨s₀, s₁, hget, h⟩ := bind_eq_ok.mp h
    cases hget
    cases hlocal : s.locals[name]? with
    | some value =>
      simp only [hlocal] at h
      cases h
      exact .local hlocal
    | none =>
      simp only [hlocal] at h
      by_cases hname : context.functions.contains name
      · rw [if_pos hname] at h
        cases h
        exact .function hlocal hname
      · rw [if_neg hname] at h
        cases h
  case int =>
    intro value s v s' h
    rw [Expr.eval] at h
    cases h
    exact .int value
  case bool =>
    intro value s v s' h
    rw [Expr.eval] at h
    cases h
    exact .bool value
  case and =>
    intro lhs rhs ihl ihr s v s' h
    rw [Expr.eval] at h
    obtain ⟨b, s₁, hleft, h⟩ := bind_condition_eq_ok h
    cases b with
    | false =>
      cases h
      exact .andFalse (ihl _ _ _ hleft)
    | true =>
      rw [if_pos rfl] at h
      obtain ⟨b', s₂, hright, h⟩ := bind_condition_eq_ok h
      cases h
      exact .andTrue (ihl _ _ _ hleft) (ihr _ _ _ hright)
  case or =>
    intro lhs rhs ihl ihr s v s' h
    rw [Expr.eval] at h
    obtain ⟨b, s₁, hleft, h⟩ := bind_condition_eq_ok h
    cases b with
    | true =>
      cases h
      exact .orTrue (ihl _ _ _ hleft)
    | false =>
      rw [if_neg Bool.false_ne_true] at h
      obtain ⟨b', s₂, hright, h⟩ := bind_condition_eq_ok h
      cases h
      exact .orFalse (ihl _ _ _ hleft) (ihr _ _ _ hright)
  case primitive =>
    intro operator operands hand hor ih s v s' h
    rw [Expr.eval] at h
    · rw [bind_eq_ok] at h
      obtain ⟨values, s₁, hvalues, h⟩ := h
      obtain ⟨s₂, s₃, hget, h⟩ := bind_eq_ok.mp h
      cases hget
      have hvalue : Value.primitive s₁.heap operator values = .ok v ∧ s' = s₁ := by
        cases hp : Value.primitive s₁.heap operator values with
        | error error => rw [hp] at h; cases h
        | ok value => rw [hp] at h; cases h; exact ⟨rfl, rfl⟩
      obtain ⟨hvalue, rfl⟩ := hvalue
      have hstrict : operator.isShortCircuiting = false := by
        cases hop : operator.isShortCircuiting with
        | false => rfl
        | true =>
          rw [← hop]
          refine isShortCircuiting_of_primitive hvalue fun a b hab => ?_
          have hlength := length_of_evalAll hvalues
          subst hab
          match operands, hlength with
          | [lhs, rhs], _ =>
            cases operator with
            | and => exact hand lhs rhs rfl rfl
            | or => exact hor lhs rhs rfl rfl
            | _ => cases hop
      exact .primitive hstrict (ih _ _ _ hvalues) hvalue
    · exact hand
    · exact hor
  case call =>
    intro target arguments iht iha s v s' h
    rw [Expr.eval] at h
    obtain ⟨targetValue, s₁, ht, h⟩ := bind_eq_ok.mp h
    obtain ⟨values, s₂, hvalues, h⟩ := bind_eq_ok.mp h
    obtain ⟨name, function, completion, σ, rfl, hfunction, hbody, rfl, hs'⟩ := call_eq_ok henter h
    rw [hs']
    exact .call (iht _ _ _ ht) (iha _ _ _ hvalues) hfunction hbody
  case tuple =>
    intro fields ih s v s' h
    rw [Expr.eval] at h
    obtain ⟨values, s₁, hvalues, h⟩ := bind_eq_ok.mp h
    cases h
    exact .tuple (ih _ _ _ hvalues)
  case begin =>
    intro statements value ihs ihv s v s' h
    rw [Expr.eval] at h
    obtain ⟨completion, s₁, hs, h⟩ := bind_eq_ok.mp h
    cases completion with
    | returned result =>
      cases h
      exact .beginReturned rfl (ihs _ _ _ hs)
    | next => exact .beginNext (ihs _ _ _ hs) (ihv _ _ _ h)
  case global =>
    intro name s v s' h
    rw [Expr.eval] at h
    cases h
    exact .global name
  case allocate =>
    intro bytes fields s v s' h
    rw [Expr.eval] at h
    cases h
    exact .allocate bytes fields
  case allocateOther =>
    intro bytes ty hty s v s' h
    rw [Expr.eval] at h
    · cases h
    · exact hty
  case assign =>
    intro target value ih s c s' h
    rw [Stmt.exec] at h
    obtain ⟨_, s₁, hspend, h⟩ := bind_eq_ok.mp h
    obtain ⟨result, s₂, hv, h⟩ := bind_eq_ok.mp h
    obtain ⟨_, s₃, hmodify, h⟩ := bind_eq_ok.mp h
    cases hmodify
    cases h
    have hrun := ih _ _ _ hv
    rw [spend_eq_ok hspend] at hrun
    exact .assign hrun
  case print =>
    intro value ih s c s' h
    rw [Stmt.exec] at h
    obtain ⟨_, s₁, hspend, h⟩ := bind_eq_ok.mp h
    obtain ⟨result, s₂, hv, h⟩ := bind_eq_ok.mp h
    have hrun := ih _ _ _ hv
    rw [spend_eq_ok hspend] at hrun
    cases hword : result.word? with
    | none =>
      simp only [hword] at h
      exact absurd h invalid_ne_ok
    | some word =>
      simp only [hword] at h
      obtain ⟨_, s₃, hmodify, h⟩ := bind_eq_ok.mp h
      cases hmodify
      cases h
      exact .print hrun hword
  case ifElse =>
    intro test positive negative iht ihp ihn s c s' h
    rw [Stmt.exec] at h
    obtain ⟨_, s₁, hspend, h⟩ := bind_eq_ok.mp h
    obtain ⟨b, s₂, hv, h⟩ := bind_condition_eq_ok h
    have hrun := iht _ _ _ hv
    rw [spend_eq_ok hspend] at hrun
    cases b with
    | true => exact .ifTrue hrun (ihp _ _ _ h)
    | false => exact .ifFalse hrun (ihn _ _ _ h)
  case whileDo =>
    intro test body s c s' h
    rw [Stmt.exec] at h
    obtain ⟨_, s₁, hspend, h⟩ := bind_eq_ok.mp h
    have hrun := henter _ _ _ _ h
    rw [spend_eq_ok hspend] at hrun
    exact .whileDo hrun
  case ret =>
    intro value ih s c s' h
    rw [Stmt.exec] at h
    rw [bind₂_eq_ok] at h
    obtain ⟨_, s₁, result, hspend, hv, rfl⟩ := h
    have hrun := ih _ _ _ hv
    rw [spend_eq_ok hspend] at hrun
    exact .ret hrun
  case define =>
    intro name parameters output body s c s' h
    rw [Stmt.exec] at h
    rw [bind_pure_eq_ok] at h
    obtain ⟨_, hspend, rfl⟩ := h
    rw [spend_eq_ok hspend]
    exact .define name parameters output body
  case collect =>
    intro bytes s c s' h
    rw [Stmt.exec] at h
    rw [bind_pure_eq_ok] at h
    obtain ⟨_, hspend, rfl⟩ := h
    rw [spend_eq_ok hspend]
    exact .collect bytes
  case setField =>
    intro tuple index value ih s c s' h
    rw [Stmt.exec] at h
    obtain ⟨_, s₁, hspend, h⟩ := bind_eq_ok.mp h
    rw [bind₂_eq_ok] at h
    obtain ⟨result, s₂, _, hv, hset, rfl⟩ := h
    have hrun := ih _ _ _ hv
    rw [spend_eq_ok hspend] at hrun
    obtain ⟨address, htuple, hindex, hstore⟩ := setField_eq_ok hset
    rw [hstore]
    exact .setField hrun htuple hindex
  case exprsNil =>
    intro s vs s' h
    rw [Expr.evalAll] at h
    cases h
    exact .exprsNil
  case exprsCons =>
    intro expression expressions ihe ihs s vs s' h
    rw [Expr.evalAll] at h
    rw [bind₂_eq_ok] at h
    obtain ⟨value, s₁, values, hv, hs, rfl⟩ := h
    exact .exprsCons (ihe _ _ _ hv) (ihs _ _ _ hs)
  case blockNil =>
    intro s c s' h
    rw [Stmt.execBlock] at h
    cases h
    exact .blockNil
  case blockCons =>
    intro statement statements ihs ihr s c s' h
    rw [Stmt.execBlock] at h
    obtain ⟨completion, s₁, hs, h⟩ := bind_eq_ok.mp h
    cases completion with
    | returned value =>
      cases h
      exact .blockReturned (ihs _ _ _ hs)
    | next => exact .blockNext (ihs _ _ _ hs) (ihr _ _ _ h)

/-- Whatever the depth, code that is entered anew runs as the relation says. -/
theorem enter_sound (context : Context) (depth : Nat) :
    EntersSoundly context (Interpreter.enter context depth) := by
  induction depth with
  | zero => exact nofun
  | succ depth ih =>
    intro entry s c s' h
    obtain ⟨heval, hblock, -, -⟩ := eval_sound ih
    cases entry with
    | body statements => exact hblock _ _ _ _ h
    | turn test body =>
      rw [Interpreter.enter] at h
      obtain ⟨b, s₁, hv, h⟩ := bind_condition_eq_ok h
      cases b with
      | false =>
        cases h
        exact .turnStop (heval _ _ _ _ hv)
      | true =>
        rw [if_pos rfl] at h
        obtain ⟨completion, s₃, hs, h⟩ := bind_eq_ok.mp h
        cases completion with
        | returned value =>
          cases h
          exact .turnReturned (heval _ _ _ _ hv) (hblock _ _ _ _ hs)
        | next =>
          obtain ⟨_, s₄, hspend, h⟩ := bind_eq_ok.mp h
          have hrun := ih _ _ _ _ h
          rw [spend_eq_ok hspend] at hrun
          exact .turnNext (heval _ _ _ _ hv) (hblock _ _ _ _ hs) hrun

/-! ## From runs to the interpreter -/

/-- The task ends with the outcome when entries may be nested at least `depth` deep and `cost` units
of the budget are there; exactly `cost` units are used. -/
def Task.Finishes (functions : Std.ExtTreeMap Name Function) (depth cost : Nat) :
    Task → Store → Outcome → Store → Prop
  | .expr e, σ, .value v, σ' => ∀ limit ≥ depth, ∀ budget fuel,
    Expr.eval ⟨functions, budget⟩ (Interpreter.enter ⟨functions, budget⟩ limit) e
      (σ.withFuel (fuel + cost)) = .ok (v, σ'.withFuel fuel)
  | .exprs es, σ, .values vs, σ' => ∀ limit ≥ depth, ∀ budget fuel,
    Expr.evalAll ⟨functions, budget⟩ (Interpreter.enter ⟨functions, budget⟩ limit) es
      (σ.withFuel (fuel + cost)) = .ok (vs, σ'.withFuel fuel)
  | .stmt s, σ, .ended c, σ' => ∀ limit ≥ depth, ∀ budget fuel,
    Stmt.exec ⟨functions, budget⟩ (Interpreter.enter ⟨functions, budget⟩ limit) s
      (σ.withFuel (fuel + cost)) = .ok (c, σ'.withFuel fuel)
  | .block ss, σ, .ended c, σ' => ∀ limit ≥ depth, ∀ budget fuel,
    Stmt.execBlock ⟨functions, budget⟩ (Interpreter.enter ⟨functions, budget⟩ limit) ss
      (σ.withFuel (fuel + cost)) = .ok (c, σ'.withFuel fuel)
  | .turn test body, σ, .ended c, σ' => ∀ limit ≥ depth, ∀ budget fuel,
    Interpreter.enter ⟨functions, budget⟩ limit (.turn test body) (σ.withFuel (fuel + cost)) =
      .ok (c, σ'.withFuel fuel)
  | _, _, _, _ => False

theorem spend_withFuel (context : Context) (σ : Store) (fuel : Nat) :
    spend context (σ.withFuel (fuel + 1)) = .ok ((), σ.withFuel fuel) :=
  rfl

/-- A field of a tuple can be set. -/
theorem setField_of_tuple {address : Nat} (htuple : s.locals[tuple]? = some (.tuple address))
    (hindex : index < (s.heap.fields address).length) :
    setField tuple index value s = .ok ((), { s with
      heap := s.heap.setIfInBounds address ((s.heap.fields address).set index value) }) := by
  unfold setField
  rw [bind_of_ok (get_eq_ok _)]
  simp only [htuple]
  rw [if_pos hindex]
  rfl

theorem condition_bool (b : Bool) (s : State) : condition (.bool b) s = .ok (b, s) :=
  rfl

/-- Every run can be had from the interpreter, at some depth and cost. -/
theorem Runs.finishes {functions : Std.ExtTreeMap Name Function} {steady : Bool} {task : Task}
    {σ σ' : Store} {outcome : Outcome} (h : Runs steady functions task σ outcome σ') :
    ∃ depth cost, task.Finishes functions depth cost σ outcome σ' := by
  -- on the run; depth is the greatest of the parts, cost their sum, plus one where it is paid
  induction h with
  | @«local» σ name value hlocal =>
    refine ⟨0, 0, fun limit _ budget fuel => ?_⟩
    rw [Expr.eval, bind_of_ok (get_eq_ok _)]
    simp only [Store.withFuel, hlocal]
    rfl
  | @function σ name hlocal hname =>
    refine ⟨0, 0, fun limit _ budget fuel => ?_⟩
    rw [Expr.eval, bind_of_ok (get_eq_ok _)]
    simp only [Store.withFuel, hlocal, hname]
    rfl
  | int value => exact ⟨0, 0, fun limit _ budget fuel => by rw [Expr.eval]; rfl⟩
  | bool value => exact ⟨0, 0, fun limit _ budget fuel => by rw [Expr.eval]; rfl⟩
  | andTrue _ _ ihl ihr =>
    obtain ⟨dl, cl, hl⟩ := ihl
    obtain ⟨dr, cr, hr⟩ := ihr
    refine ⟨max dl dr, cr + cl, fun limit hlimit budget fuel => ?_⟩
    rw [Expr.eval, ← Nat.add_assoc, bind_of_ok (hl limit (by omega) budget _),
      bind_of_ok (condition_bool _ _), if_pos rfl, bind_of_ok (hr limit (by omega) budget _),
      bind_of_ok (condition_bool _ _)]
    rfl
  | andFalse _ ihl | orTrue _ ihl =>
    obtain ⟨dl, cl, hl⟩ := ihl
    refine ⟨dl, cl, fun limit hlimit budget fuel => ?_⟩
    rw [Expr.eval, bind_of_ok (hl limit hlimit budget _), bind_of_ok (condition_bool _ _)]
    rfl
  | orFalse _ _ ihl ihr =>
    obtain ⟨dl, cl, hl⟩ := ihl
    obtain ⟨dr, cr, hr⟩ := ihr
    refine ⟨max dl dr, cr + cl, fun limit hlimit budget fuel => ?_⟩
    rw [Expr.eval, ← Nat.add_assoc, bind_of_ok (hl limit (by omega) budget _),
      bind_of_ok (condition_bool _ _), if_neg Bool.false_ne_true,
      bind_of_ok (hr limit (by omega) budget _), bind_of_ok (condition_bool _ _)]
    rfl
  | @primitive σ σ₁ operator operands values value hstrict _ hvalue ih =>
    obtain ⟨d, c, hs⟩ := ih
    refine ⟨d, c, fun limit hlimit budget fuel => ?_⟩
    rw [Expr.eval, bind_of_ok (hs limit hlimit budget _),
      bind_of_ok (get_eq_ok _)]
    · simp only [Store.withFuel, hvalue]
      rfl
    · rintro _ _ rfl
      cases hstrict
    · rintro _ _ rfl
      cases hstrict
  | @call σ σ₁ σ₂ σ₃ target arguments name values function completion _ _ hfunction _ iht iha ihb =>
    obtain ⟨dt, ct, ht⟩ := iht
    obtain ⟨da, ca, ha⟩ := iha
    obtain ⟨db, cb, hb⟩ := ihb
    refine ⟨max (max dt da) (db + 1), cb + ca + ct, fun limit hlimit budget fuel => ?_⟩
    obtain ⟨limit, rfl⟩ : ∃ l, limit = l + 1 := ⟨limit - 1, by omega⟩
    rw [Expr.eval, ← Nat.add_assoc, ← Nat.add_assoc, bind_of_ok (ht _ (by omega) budget _),
      bind_of_ok (ha _ (by omega) budget _)]
    simp only [Interpreter.call, hfunction]
    have hbody : Interpreter.enter ⟨functions, budget⟩ (limit + 1) (.body function.body)
        (Store.withFuel { σ₂ with
          locals := bindArguments (function.parameters.map Prod.fst) values } (fuel + cb)) =
        .ok (completion, σ₃.withFuel fuel) := hb limit (by omega) budget fuel
    rw [bind_of_ok (get_eq_ok _), bind_of_ok (modify_eq_ok _ _)]
    refine (bind_of_ok hbody).trans ?_
    cases completion <;> rfl
  | tuple _ ih | beginReturned _ _ ih =>
    obtain ⟨d, c, hs⟩ := ih
    refine ⟨d, c, fun limit hlimit budget fuel => ?_⟩
    rw [Expr.eval, bind_of_ok (hs limit hlimit budget _)]
    rfl
  | beginNext _ _ ihs ihv =>
    obtain ⟨ds, cs, hs⟩ := ihs
    obtain ⟨dv, cv, hv⟩ := ihv
    refine ⟨max ds dv, cv + cs, fun limit hlimit budget fuel => ?_⟩
    rw [Expr.eval, ← Nat.add_assoc, bind_of_ok (hs limit (by omega) budget _)]
    exact hv limit (by omega) budget _
  | global name => exact ⟨0, 0, fun limit _ budget fuel => by rw [Expr.eval]; rfl⟩
  | allocate bytes fields => exact ⟨0, 0, fun limit _ budget fuel => by rw [Expr.eval]; rfl⟩
  | exprsNil => exact ⟨0, 0, fun limit _ budget fuel => by rw [Expr.evalAll]; rfl⟩
  | exprsCons _ _ ihv ihs =>
    obtain ⟨dv, cv, hv⟩ := ihv
    obtain ⟨ds, cs, hs⟩ := ihs
    refine ⟨max dv ds, cs + cv, fun limit hlimit budget fuel => ?_⟩
    rw [Expr.evalAll, ← Nat.add_assoc, bind_of_ok (hv limit (by omega) budget _),
      bind_of_ok (hs limit (by omega) budget _)]
    rfl
  | assign _ ih | ret _ ih =>
    obtain ⟨d, c, hv⟩ := ih
    refine ⟨d, c + 1, fun limit hlimit budget fuel => ?_⟩
    rw [Stmt.exec, ← Nat.add_assoc, bind_of_ok (spend_withFuel _ _ _),
      bind_of_ok (hv limit hlimit budget _)]
    rfl
  | print _ hword ih =>
    obtain ⟨d, c, hv⟩ := ih
    refine ⟨d, c + 1, fun limit hlimit budget fuel => ?_⟩
    rw [Stmt.exec, ← Nat.add_assoc, bind_of_ok (spend_withFuel _ _ _),
      bind_of_ok (hv limit hlimit budget _)]
    simp only [hword]
    rfl
  | ifTrue _ _ ihc ihs | ifFalse _ _ ihc ihs =>
    obtain ⟨dc, cc, hc⟩ := ihc
    obtain ⟨ds, cs, hs⟩ := ihs
    refine ⟨max dc ds, cs + cc + 1, fun limit hlimit budget fuel => ?_⟩
    rw [Stmt.exec, ← Nat.add_assoc, ← Nat.add_assoc, bind_of_ok (spend_withFuel _ _ _),
      bind_of_ok (hc limit (by omega) budget _), bind_of_ok (condition_bool _ _)]
    exact hs limit (by omega) budget _
  | whileDo _ ih =>
    obtain ⟨d, c, ht⟩ := ih
    refine ⟨d, c + 1, fun limit hlimit budget fuel => ?_⟩
    rw [Stmt.exec, ← Nat.add_assoc, bind_of_ok (spend_withFuel _ _ _)]
    exact ht limit hlimit budget fuel
  | define name parameters output body =>
    exact ⟨0, 1, fun limit _ budget fuel => by rw [Stmt.exec]; rfl⟩
  | collect bytes => exact ⟨0, 1, fun limit _ budget fuel => by rw [Stmt.exec]; rfl⟩
  | @setField σ σ₁ tuple index value result address _ htuple hindex ih =>
    obtain ⟨d, c, hv⟩ := ih
    refine ⟨d, c + 1, fun limit hlimit budget fuel => ?_⟩
    rw [Stmt.exec, ← Nat.add_assoc, bind_of_ok (spend_withFuel _ _ _),
      bind_of_ok (hv limit hlimit budget _), bind_of_ok (setField_of_tuple htuple hindex)]
    rfl
  | blockNil => exact ⟨0, 0, fun limit _ budget fuel => by rw [Stmt.execBlock]; rfl⟩
  | blockReturned _ ih =>
    obtain ⟨d, c, hs⟩ := ih
    refine ⟨d, c, fun limit hlimit budget fuel => ?_⟩
    rw [Stmt.execBlock, bind_of_ok (hs limit hlimit budget _)]
    rfl
  | blockNext _ _ ihs ihr =>
    obtain ⟨ds, cs, hs⟩ := ihs
    obtain ⟨dr, cr, hr⟩ := ihr
    refine ⟨max ds dr, cr + cs, fun limit hlimit budget fuel => ?_⟩
    rw [Stmt.execBlock, ← Nat.add_assoc, bind_of_ok (hs limit (by omega) budget _)]
    exact hr limit (by omega) budget _
  | turnStop _ ih =>
    obtain ⟨d, c, hc⟩ := ih
    refine ⟨d + 1, c, fun limit hlimit budget fuel => ?_⟩
    obtain ⟨limit, rfl⟩ : ∃ l, limit = l + 1 := ⟨limit - 1, by omega⟩
    rw [Interpreter.enter, bind_of_ok (hc limit (by omega) budget _),
      bind_of_ok (condition_bool _ _)]
    rfl
  | turnReturned _ _ ihc ihs =>
    obtain ⟨dc, cc, hc⟩ := ihc
    obtain ⟨ds, cs, hs⟩ := ihs
    refine ⟨max dc ds + 1, cs + cc, fun limit hlimit budget fuel => ?_⟩
    obtain ⟨limit, rfl⟩ : ∃ l, limit = l + 1 := ⟨limit - 1, by omega⟩
    rw [Interpreter.enter, ← Nat.add_assoc, bind_of_ok (hc limit (by omega) budget _),
      bind_of_ok (condition_bool _ _), if_pos rfl, bind_of_ok (hs limit (by omega) budget _)]
    rfl
  | turnNext _ _ _ ihc ihs iht =>
    obtain ⟨dc, cc, hc⟩ := ihc
    obtain ⟨ds, cs, hs⟩ := ihs
    obtain ⟨dt, ct, ht⟩ := iht
    refine ⟨max (max dc ds) dt + 1, ct + 1 + cs + cc, fun limit hlimit budget fuel => ?_⟩
    obtain ⟨limit, rfl⟩ : ∃ l, limit = l + 1 := ⟨limit - 1, by omega⟩
    rw [Interpreter.enter, ← Nat.add_assoc, ← Nat.add_assoc, ← Nat.add_assoc,
      bind_of_ok (hc limit (by omega) budget _), bind_of_ok (condition_bool _ _), if_pos rfl,
      bind_of_ok (hs limit (by omega) budget _)]
    change (spend _ >>= fun _ => _) _ = _
    rw [bind_of_ok (spend_withFuel _ _ _)]
    exact ht limit (by omega) budget fuel

end Interpreter

open Interpreter

/-- A program prints a list of words on some budget exactly when it has a run that prints them. -/
theorem Program.exists_interpret_iff {program : Program} {output : List Word} :
    (∃ budget, program.interpret budget = .ok output) ↔ program.Prints false output := by
  constructor
  · rintro ⟨budget, h⟩
    unfold Program.interpret at h
    cases hrun : (Stmt.execBlock ⟨functionTable program, budget⟩
        (Interpreter.enter ⟨functionTable program, budget⟩ (2 * budget + 2))
        program.statements).run { fuel := budget } with
    | error error => simp [hrun, bind, Except.bind] at h
    | ok r =>
      obtain ⟨completion, s⟩ := r
      simp only [hrun, bind, Except.bind, pure, Except.pure, Except.ok.injEq] at h
      obtain ⟨-, hblock, -, -⟩ := eval_sound (enter_sound ⟨functionTable program, budget⟩
        (2 * budget + 2))
      exact ⟨completion, s.store, hblock _ _ _ _ hrun, h⟩
  · rintro ⟨completion, σ, hrun, houtput⟩
    obtain ⟨depth, cost, h⟩ := hrun.finishes
    have hrun := h (2 * (cost + depth) + 2) (by omega) (cost + depth) depth
    refine ⟨cost + depth, ?_⟩
    unfold Program.interpret
    have hstart : ({ fuel := cost + depth } : State) = Store.withFuel {} (depth + cost) := by
      rw [Nat.add_comm]
      rfl
    rw [hstart]
    change ((Stmt.execBlock _ _ _ _) >>= _) = _
    rw [hrun]
    exact congrArg Except.ok houtput

end TupleLang
