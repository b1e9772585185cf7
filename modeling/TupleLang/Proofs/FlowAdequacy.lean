import TupleLang.Proofs.Explication
import TupleLang.Proofs.LoweredPrograms
import TupleLang.Proofs.SteadyLoops

/-!
# What control-flow programs print

A run of a control-flow program comes to its end wherever calls and jumps may be nested deep enough
(`Flow.Runs.finishes`), so a program that has a run prints its words for every large enough limit
(`Flow.Program.Prints.interpret`).

With that, turning programs into control-flow programs keeps what they print
(`Program.interpret_toFlow`): the program is flat and its allocations are explicit, so it is in
normal form and steady, each of its runs is a run of the control-flow program, and that one is
found by running the blocks.
-/

namespace TupleLang

open Interpreter

namespace Flow

/-- The context with another limit on the depth of the run. -/
def Context.withLimit (context : Context) (limit : Nat) : Context :=
  { context with limit }

section Atoms

variable {context : Context} {σ : Store}

/-- Atoms evaluate to their values. -/
theorem Atom.eval_of_value? {atom : Atom} {value : Value}
    (h : atom.value? context σ.locals = some value) (limit fuel : Nat) :
    atom.eval (context.withLimit limit) (σ.withFuel fuel) = .ok (value, σ.withFuel fuel) := by
  cases atom with
  | const constant =>
    cases constant <;> cases h <;> rfl
  | var name =>
    rw [Atom.value?] at h
    rw [Atom.eval, Stateful.bind_of_ok (Stateful.get_eq_ok _)]
    simp only [Store.withFuel]
    cases hlocal : σ.locals[name]? with
    | some bound =>
      rw [hlocal] at h
      cases h
      rfl
    | none =>
      simp only [hlocal] at h
      split at h
      · next hname =>
        cases h
        exact congrFun (if_pos hname) _
      · cases h

/-- So do several of them. -/
theorem Atom.evalAll_of_value? {atoms : List Atom} {values : List Value}
    (h : atoms.map (·.value? context σ.locals) = values.map some) (limit fuel : Nat) :
    Atom.evalAll (context.withLimit limit) atoms (σ.withFuel fuel) =
      .ok (values, σ.withFuel fuel) := by
  induction atoms generalizing values with
  | nil =>
    cases values with
    | nil => rfl
    | cons value values => cases h
  | cons atom atoms ih =>
    cases values with
    | nil => cases h
    | cons value values =>
      rw [List.map_cons, List.map_cons, List.cons.injEq] at h
      rw [Atom.evalAll, Stateful.bind_of_ok (Atom.eval_of_value? h.1 limit fuel),
        Stateful.bind_of_ok (ih h.2)]
      rfl

end Atoms

/-! ## Runs come to their end -/

/-- The task gives the value when calls and jumps may be nested at least `depth` deep. -/
def Task.Finishes (context : Context) (depth : Nat) (σ : Store) (value : Value) (σ' : Store) :
    Task → Prop
  | .operation op => ∀ bound, ∀ limit ≥ depth, ∀ fuel,
    op.eval (context.withLimit bound) (enter (context.withLimit bound) limit)
      (σ.withFuel fuel) = .ok (value, σ'.withFuel fuel)
  | .code function statements => ∀ bound, ∀ limit ≥ depth, ∀ fuel,
    runStmts (context.withLimit bound) (enter (context.withLimit bound) limit) function statements
      (σ.withFuel fuel) = .ok (value, σ'.withFuel fuel)

variable {context : Context} {σ σ' : Store} {value : Value}

/-- A block is entered at the cost of one level of depth. -/
theorem enter_block {function : Function} {label : Name} {code : List Stmt} {depth : Nat}
    (hcode : function.code? label = some code)
    (h : (Task.code function code).Finishes context depth σ value σ') (bound limit : Nat)
    (hlimit : limit ≥ depth + 1) (fuel : Nat) :
    enter (context.withLimit bound) limit (.block function label) (σ.withFuel fuel) =
      .ok (value, σ'.withFuel fuel) := by
  obtain ⟨limit, rfl⟩ : ∃ l, limit = l + 1 := ⟨limit - 1, by omega⟩
  rw [Function.code?, Option.map_eq_some_iff] at hcode
  obtain ⟨block, hblock, rfl⟩ := hcode
  rw [enter]
  simp only [hblock]
  exact h bound limit (by omega) fuel

/-- A call is entered at the cost of one level of depth, and restores the variables. -/
theorem enter_call {function : Function} {name : Name} {values : List Value} {depth : Nat}
    (hfunction : context.functions[name]? = some function)
    (h : (Task.code function function.start).Finishes context depth
      { σ with locals := bindArguments function.parameters values } value σ') (bound limit : Nat)
    (hlimit : limit ≥ depth + 1) (fuel : Nat) :
    enter (context.withLimit bound) limit (.call name values) (σ.withFuel fuel) =
      .ok (value, Store.withFuel { σ' with locals := σ.locals } fuel) := by
  obtain ⟨limit, rfl⟩ : ∃ l, limit = l + 1 := ⟨limit - 1, by omega⟩
  have hfunction' : (context.withLimit bound).functions[name]? = some function := hfunction
  rw [enter]
  simp only [hfunction']
  rw [Stateful.bind_of_ok (Stateful.get_eq_ok _), Stateful.bind_of_ok (Stateful.modify_eq_ok _ _)]
  exact Stateful.bind_of_ok (h bound limit (by omega) fuel)

/-- Every run comes to its end, at some depth. -/
theorem Runs.finishes {task : Task} (h : Runs context task σ value σ') :
    ∃ depth, task.Finishes context depth σ value σ' := by
  induction h with
  | atom h => exact ⟨0, fun bound limit _ fuel => Atom.eval_of_value? h bound fuel⟩
  | andTrue hl hr =>
    refine ⟨0, fun bound limit _ fuel => ?_⟩
    rw [Operation.eval, applyOperator, Stateful.bind_of_ok (Atom.eval_of_value? hl bound fuel),
      Stateful.bind_of_ok (condition_bool _ _), if_pos rfl,
      Stateful.bind_of_ok (Atom.eval_of_value? hr bound fuel),
      Stateful.bind_of_ok (condition_bool _ _)]
    rfl
  | andFalse hl | orTrue hl =>
    refine ⟨0, fun bound limit _ fuel => ?_⟩
    rw [Operation.eval, applyOperator, Stateful.bind_of_ok (Atom.eval_of_value? hl bound fuel),
      Stateful.bind_of_ok (condition_bool _ _)]
    rfl
  | orFalse hl hr =>
    refine ⟨0, fun bound limit _ fuel => ?_⟩
    rw [Operation.eval, applyOperator, Stateful.bind_of_ok (Atom.eval_of_value? hl bound fuel),
      Stateful.bind_of_ok (condition_bool _ _), if_neg Bool.false_ne_true,
      Stateful.bind_of_ok (Atom.eval_of_value? hr bound fuel),
      Stateful.bind_of_ok (condition_bool _ _)]
    rfl
  | @primitive σ operator operands values value hstrict hs hvalue =>
    refine ⟨0, fun bound limit _ fuel => ?_⟩
    rw [Operation.eval, applyOperator, Stateful.bind_of_ok (Atom.evalAll_of_value? hs bound fuel),
      Stateful.bind_of_ok (Stateful.get_eq_ok _)]
    · exact Stateful.liftM_of_ok hvalue _
    · rintro _ _ rfl
      cases hstrict
    · rintro _ _ rfl
      cases hstrict
  | call ht hs hfunction _ ih =>
    obtain ⟨depth, hbody⟩ := ih
    refine ⟨depth + 1, fun bound limit hlimit fuel => ?_⟩
    rw [Operation.eval, evalCall, Stateful.bind_of_ok (Atom.eval_of_value? ht bound fuel),
      Stateful.bind_of_ok (Atom.evalAll_of_value? hs bound fuel)]
    exact enter_call hfunction hbody bound limit hlimit fuel
  | allocate bytes fields => exact ⟨0, fun bound limit _ fuel => rfl⟩
  | global name => exact ⟨0, fun bound limit _ fuel => rfl⟩
  | assign _ _ ihv ihr =>
    obtain ⟨dv, hv⟩ := ihv
    obtain ⟨dr, hr⟩ := ihr
    refine ⟨max dv dr, fun bound limit hlimit fuel => ?_⟩
    rw [runStmts, Stateful.bind_of_ok (hv bound limit (by omega) fuel),
      Stateful.bind_of_ok (Stateful.modify_eq_ok _ _)]
    exact hr bound limit (by omega) fuel
  | print hv hword _ ih =>
    obtain ⟨depth, hrest⟩ := ih
    refine ⟨depth, fun bound limit hlimit fuel => ?_⟩
    rw [runStmts, Stateful.bind_of_ok (Atom.eval_of_value? hv bound fuel)]
    simp only [hword]
    rw [Stateful.bind_of_ok (Stateful.modify_eq_ok _ _)]
    exact hrest bound limit hlimit fuel
  | collect _ ih =>
    obtain ⟨depth, hrest⟩ := ih
    refine ⟨depth, fun bound limit hlimit fuel => ?_⟩
    rw [runStmts]
    exact hrest bound limit hlimit fuel
  | setField hv htuple hindex _ ih =>
    obtain ⟨depth, hrest⟩ := ih
    refine ⟨depth, fun bound limit hlimit fuel => ?_⟩
    rw [runStmts, Stateful.bind_of_ok (Atom.eval_of_value? hv bound fuel),
      Stateful.bind_of_ok (setField_of_tuple htuple hindex)]
    exact hrest bound limit hlimit fuel
  | goto hcode _ ih =>
    obtain ⟨depth, hrest⟩ := ih
    refine ⟨depth + 1, fun bound limit hlimit fuel => ?_⟩
    rw [runStmts]
    exact enter_block hcode hrest bound limit hlimit fuel
  | branch _ hcode _ iht ihr =>
    obtain ⟨dt, htest⟩ := iht
    obtain ⟨dr, hrest⟩ := ihr
    refine ⟨max dt (dr + 1), fun bound limit hlimit fuel => ?_⟩
    have htest := htest bound limit (by omega) fuel
    rw [Operation.eval] at htest
    rw [runStmts, Stateful.bind_of_ok htest, Stateful.bind_of_ok (condition_bool _ _)]
    exact enter_block hcode hrest bound limit (by omega) fuel
  | ret hv => exact ⟨0, fun bound limit _ fuel => Atom.eval_of_value? hv bound fuel⟩
  | tailCall _ ih =>
    obtain ⟨depth, hv⟩ := ih
    exact ⟨depth, fun bound limit hlimit fuel => hv bound limit hlimit fuel⟩

/-- A program that has a run prints its words for every limit that is large enough. -/
theorem Program.Prints.interpret {program : Program} {output : List Word}
    (h : program.Prints output) :
    ∃ depth, ∀ limit ≥ depth, program.interpret limit = .ok output := by
  obtain ⟨entry, value, σ, hentry, hrun, houtput⟩ := h
  have hstart : ({} : Store) = { locals := bindArguments entry.parameters [] } := by
    rw [bindArguments, List.zip_nil_right]
    rfl
  rw [hstart] at hrun
  obtain ⟨depth, hfinishes⟩ := hrun.finishes
  refine ⟨depth + 1, fun limit hlimit => ?_⟩
  have hcall := enter_call (σ := {}) hentry hfinishes limit limit hlimit 0
  change (enter (program.context.withLimit limit) limit (.call Name.entryPoint [])
    (Store.withFuel {} 0) >>= fun r => pure r.2.output.toList) = _
  rw [hcall]
  exact congrArg Except.ok houtput

end Flow

/-- Turning a program into a control-flow program keeps what it prints.  A program without `begin`
that the type checker accepts is flattened, and its allocations are made explicit; whatever the
result prints on some budget, its control-flow program prints for every limit that is large
enough. -/
theorem Program.interpret_toFlow {program flat exposed : Program}
    {environment environment₁ : TypeEnvironment} {s s₁ s₂ : NameSupply} {budget : Nat}
    {output : List Word} (hbegin : program.isBeginFree = true)
    (htypes : program.typeCheck = .ok environment) (hflat : program.flatten s = .ok (flat, s₁))
    (htypes₁ : flat.typeCheckLowered = .ok environment₁)
    (hexposed : flat.exposeAllocation environment₁ s₁ = .ok (exposed, s₂))
    (h : exposed.interpret budget = .ok output) :
    ∃ environment₂, exposed.typeCheckLowered = .ok environment₂ ∧
      ∀ supply, ∃ flow supply', exposed.toFlow environment₂ supply = .ok (flow, supply') ∧
        ∃ depth, ∀ limit ≥ depth, flow.interpret limit = .ok output := by
  obtain ⟨_, _, _, _, _, environment₂, hflat', htypes₁', hexposed', htypes₂, hnormal⟩ :=
    (Typing.checkProgram_eq_ok.mp htypes).exists_exposed s
  cases hflat.symm.trans hflat'
  cases htypes₁.symm.trans htypes₁'
  cases hexposed.symm.trans hexposed'
  have hchecks := Typing.checkProgram_eq_ok.mp htypes₂
  refine ⟨environment₂, htypes₂, fun supply => ?_⟩
  obtain ⟨flow, supply', hflow, -⟩ := hchecks.toFlow hnormal supply
  refine ⟨flow, supply', hflow, ?_⟩
  have hsteady := Program.areSteady_exposeAllocation
    (Program.areSteady_flatten hbegin hflat) hexposed
  have hprints := (Program.exists_interpret_iff.mp ⟨budget, h⟩).steady hnormal hsteady
  exact (hprints.toFlow hchecks hnormal hflow).interpret

/-- A loop that makes a new pair in each turn, as long as a function allows it. -/
def Program.pairLoop : Program := ⟨[
  .define "small" [("n", .int)] .bool [.print (.var "n"), .ret (.primitive .lt [.var "n", .int 2])],
  .assign "p" (.tuple [.int 0, .int 5]),
  .whileDo (.primitive .and [.primitive .lt [.primitive .subscript [.var "p", .int 0], .int 9],
      .call (.var "small") [.primitive .subscript [.var "p", .int 0]]])
    [.assign "p" (.tuple [.primitive .add [.primitive .subscript [.var "p", .int 0], .int 1],
      .primitive .subscript [.var "p", .int 0]])],
  .print (.primitive .subscript [.var "p", .int 1])]⟩

/-- A loop over a pair. -/
theorem Program.interpret_toFlow_pairLoop :
    ∃ flat exposed environment environment₁ s₁ s₂, Program.pairLoop.isBeginFree = true ∧
      Program.pairLoop.typeCheck = .ok environment ∧
      Program.pairLoop.flatten {} = .ok (flat, s₁) ∧
      flat.typeCheckLowered = .ok environment₁ ∧
      flat.exposeAllocation environment₁ s₁ = .ok (exposed, s₂) ∧
      exposed.interpret 100 = .ok [0, 1, 2, 1] ∧
      ∃ environment₂, exposed.typeCheckLowered = .ok environment₂ ∧
        ∀ supply, ∃ flow supply', exposed.toFlow environment₂ supply = .ok (flow, supply') ∧
          ∃ depth, ∀ limit ≥ depth, flow.interpret limit = .ok [0, 1, 2, 1] := by
  have hbegin : Program.pairLoop.isBeginFree = true := rfl
  obtain ⟨environment, htypes⟩ : ∃ environment, Program.pairLoop.typeCheck = .ok environment :=
    Except.exists_ok_of_isSome (by decide +kernel)
  obtain ⟨flat, s₁, environment₁, exposed, s₂, _, hflat, htypes₁, hexposed, -⟩ :=
    (Typing.checkProgram_eq_ok.mp htypes).exists_exposed {}
  have houtput : (do
      let (flat, s₁) ← Program.pairLoop.flatten {}
      let environment₁ ← flat.typeCheckLowered
      let (exposed, _) ← flat.exposeAllocation environment₁ s₁
      return (exposed.interpret 100).toOption).toOption = some (some [0, 1, 2, 1]) := by
    decide +kernel
  have hrun : exposed.interpret 100 = .ok [0, 1, 2, 1] := by
    simp only [hflat, htypes₁, hexposed, bind, Except.bind, pure, Except.pure,
      Except.toOption_eq_some, Except.ok.injEq] at houtput
    exact houtput
  exact ⟨flat, exposed, environment, environment₁, s₁, s₂, hbegin, htypes, hflat, htypes₁,
    hexposed, hrun, Program.interpret_toFlow hbegin htypes hflat htypes₁ hexposed hrun⟩

end TupleLang
