import TupleLang.Proofs.Adequacy

/-!
# More budget does not change an answer

This file proves that a run which does not use up its budget has the same end on every larger
budget, be it an output or an error (`Program.interpret_of_le`).

Two runs of the same code are compared side by side, the second with `extra` more units than the
first.  `Interpreter.Spares` says that the second does what the first does and has its `extra`
units left at the end, unless the first run runs out.  The relation is closed under sequences
(`Spares.bind`) and holds of every operation on the store, so the code only has to be followed
through its tree once (`Interpreter.eval_spares`).

The depth of nested entries needs more care, since the second run must not stop at a depth that the
first one reaches.  `Spares` therefore also has a `limit` on the units that the first run has left.
Each level of nesting is paid for with a unit, so the units that are left bound the levels that can
still be opened (`Entry.need`).  It follows that the depth with which `Program.interpret` starts is
never what ends a run: every greater one gives the same (`Program.interpretWithin_eq_interpret`).
-/

namespace TupleLang

open Stateful

/-- Whether the budget was used up. -/
def EvalError.isOutOfFuel : EvalError → Bool
  | .outOfFuel _ => true
  | _ => false

/-- A computation without a state that never reports a budget as used up. -/
def NeverRunsOut {α : Type} (x : Except EvalError α) : Prop :=
  ∀ error, x = .error error → error.isOutOfFuel = false

namespace NeverRunsOut

variable {α β : Type}

/-- A result needs no fuel. -/
theorem ok (a : α) : NeverRunsOut (.ok a) :=
  Except.FailsWith.ok a

/-- Nor does another error. -/
theorem error {reason : EvalError} (h : reason.isOutOfFuel = false) :
    NeverRunsOut (.error reason : Except EvalError α) :=
  Except.FailsWith.error h

/-- Nor do two steps that need none. -/
theorem bind {x : Except EvalError α} {f : α → Except EvalError β} (hx : NeverRunsOut x)
    (hf : ∀ a, NeverRunsOut (f a)) : NeverRunsOut (x >>= f) :=
  Except.FailsWith.bind hx hf

/-- Conditions need no fuel. -/
theorem asCondition (heap : Heap) (value : Value) : NeverRunsOut (value.asCondition heap) := by
  unfold Value.asCondition
  split
  · exact .ok _
  · exact .error rfl

/-- Nor do fields. -/
theorem field (heap : Heap) (address : Nat) (index : Word) :
    NeverRunsOut (Value.field heap address index) := by
  simp only [Value.field]
  split
  · exact .ok _
  · exact .error rfl

/-- Applying an operator costs nothing. -/
theorem primitive (heap : Heap) (operator : Operator) (values : List Value) :
    NeverRunsOut (Value.primitive heap operator values) := by
  unfold Value.primitive
  split
  case h_6 lhs rhs =>
    refine (asCondition heap lhs).bind fun left => ?_
    cases left
    · exact .ok _
    · exact (asCondition heap rhs).bind fun _ => .ok _
  case h_7 lhs rhs =>
    refine (asCondition heap lhs).bind fun left => ?_
    cases left
    · exact (asCondition heap rhs).bind fun _ => .ok _
    · exact .ok _
  case h_14 address index => exact field heap address index
  case h_15 => exact .error rfl
  all_goals exact .ok _

end NeverRunsOut

namespace Interpreter

/-! ## Two runs side by side -/

variable {α β : Type} {budget extra limit : Nat}

/-- What two runs of the same code end with, if the second has `extra` more units to spend.  The
first one has at most `limit` units left, or it fails for a reason of its own, or it runs out; in
the last case nothing is known about the second one. -/
inductive Spared (budget extra limit : Nat) :
    Except EvalError (α × State) → Except EvalError (α × State) → Prop where
  | ended {a : α} {σ : Store} {fuel : Nat} (h : fuel ≤ limit) :
    Spared budget extra limit (.ok (a, σ.withFuel fuel)) (.ok (a, σ.withFuel (extra + fuel)))
  | failed {error : EvalError} (h : error.isOutOfFuel = false) :
    Spared budget extra limit (.error error) (.error error)
  | ranOut {result : Except EvalError (α × State)} :
    Spared budget extra limit (.error (.outOfFuel budget)) result

/-- The second computation, given `extra` more units, does what the first one does with at most
`limit` units, unless the first one runs out. -/
def Spares (budget extra limit : Nat) (x x' : Eval α) : Prop :=
  ∀ (σ : Store) (fuel : Nat), fuel ≤ limit →
    Spared budget extra limit (x (σ.withFuel fuel)) (x' (σ.withFuel (extra + fuel)))

/-- The limit may be greater. -/
theorem Spared.mono {limit' : Nat} {r r' : Except EvalError (α × State)}
    (h : Spared budget extra limit r r') (hle : limit ≤ limit') :
    Spared budget extra limit' r r' := by
  rcases h with hfuel | herror | _
  · exact .ended (Nat.le_trans hfuel hle)
  · exact .failed herror
  · exact .ranOut

namespace Spares

/-- Results are the same with more fuel. -/
theorem pure (a : α) : Spares budget extra limit (Pure.pure a) (Pure.pure a) :=
  fun _ _ hfuel => .ended hfuel

/-- So are other errors. -/
theorem throw {error : EvalError} (h : error.isOutOfFuel = false) :
    Spares budget extra limit (throw error : Eval α) (throw error) :=
  fun _ _ _ => .failed h

/-- Computations that spare the extra units do so one after the other. -/
theorem bind {x x' : Eval α} {f f' : α → Eval β} (hx : Spares budget extra limit x x')
    (hf : ∀ a, Spares budget extra limit (f a) (f' a)) :
    Spares budget extra limit (x >>= f) (x' >>= f') := by
  intro σ fuel hfuel
  have hresult := hx σ fuel hfuel
  change Spared _ _ _ (x (σ.withFuel fuel) >>= fun p => f p.1 p.2)
    (x' (σ.withFuel (extra + fuel)) >>= fun p => f' p.1 p.2)
  generalize x (σ.withFuel fuel) = r at hresult ⊢
  generalize x' (σ.withFuel (extra + fuel)) = r' at hresult ⊢
  rcases hresult with hleft | herror | _
  · exact hf _ _ _ hleft
  · exact .failed herror
  · exact .ranOut

/-- A step that takes a unit leaves one less for what follows. -/
theorem spend {functions : Std.ExtTreeMap Name Function} {budget' : Nat} {x x' : Eval α}
    (h : ∀ left, limit = left + 1 → Spares budget extra left x x') :
    Spares budget extra limit (do Interpreter.spend ⟨functions, budget⟩; x)
      (do Interpreter.spend ⟨functions, budget'⟩; x') := by
  intro σ fuel hfuel
  cases fuel with
  | zero => exact .ranOut
  | succ fuel =>
    have hlimit : limit = limit - 1 + 1 := by omega
    have hrest := h (limit - 1) hlimit σ fuel (by omega)
    exact hrest.mono (Nat.sub_le limit 1)

/-! ### Operations on the store -/

/-- What only looks at the heap does not see how large the budget is. -/
theorem readHeap {f : Heap → Except EvalError α} (h : ∀ heap, NeverRunsOut (f heap)) :
    Spares budget extra limit (do f (← get).heap) (do f (← get).heap) := by
  intro σ fuel hfuel
  rw [bind_of_ok (get_eq_ok _), bind_of_ok (get_eq_ok _)]
  change Spared _ _ _ ((liftM (f σ.heap) : Eval α) _) ((liftM (f σ.heap) : Eval α) _)
  cases hresult : f σ.heap with
  | error reason => exact .failed (h _ reason hresult)
  | ok a => exact .ended hfuel

/-- A change of the store does not touch the budget. -/
theorem write (change : Store → Store) {f : State → State}
    (hf : ∀ σ fuel, f (σ.withFuel fuel) = (change σ).withFuel fuel) :
    Spares budget extra limit (modify f) (modify f) := by
  intro σ fuel hfuel
  rw [modify_eq_ok, modify_eq_ok, hf, hf]
  exact .ended hfuel

/-- So are conditions. -/
theorem condition (value : Value) :
    Spares budget extra limit (Interpreter.condition value) (Interpreter.condition value) :=
  readHeap fun heap => .asCondition heap value

/-- So are invalid operations. -/
theorem invalid (operation : String) (value : Value) :
    Spares budget extra limit (Interpreter.invalid operation value : Eval α)
      (Interpreter.invalid operation value) :=
  fun _ _ _ => .failed rfl

/-- So are new tuples. -/
theorem newTuple (fields : List Value) :
    Spares budget extra limit (Interpreter.newTuple fields) (Interpreter.newTuple fields) :=
  fun σ _ hfuel => Spared.ended (σ := { σ with heap := σ.heap.push fields }) hfuel

/-- So are fields that are set. -/
theorem setField (tuple : Name) (index : Nat) (value : Value) :
    Spares budget extra limit (Interpreter.setField tuple index value)
      (Interpreter.setField tuple index value) := by
  intro σ fuel hfuel
  have hlocals : ∀ fuel, (σ.withFuel fuel).locals[tuple]? = σ.locals[tuple]? := fun _ => rfl
  unfold Interpreter.setField
  rw [bind_of_ok (get_eq_ok _), bind_of_ok (get_eq_ok _)]
  simp only [hlocals]
  rcases σ.locals[tuple]? with _ | found
  · exact .failed rfl
  cases found with
  | int _ => exact .failed rfl
  | bool _ => exact .failed rfl
  | function _ => exact .failed rfl
  | tuple address =>
    simp only
    by_cases hindex : index < (σ.heap.fields address).length
    · have hlength : ∀ fuel, index < ((σ.withFuel fuel).heap.fields address).length :=
        fun _ => hindex
      rw [if_pos (hlength _), if_pos (hlength _)]
      exact Spared.ended (σ := { σ with
        heap := σ.heap.setIfInBounds address ((σ.heap.fields address).set index value) }) hfuel
    · have hlength : ∀ fuel, ¬index < ((σ.withFuel fuel).heap.fields address).length :=
        fun _ => hindex
      rw [if_neg (hlength _), if_neg (hlength _)]
      exact .failed rfl

end Spares

/-! ## Following the code -/

variable {enter enter' : Entry → Eval Completion}

/-- A call spares the extra units if the body of the function does. -/
theorem call_spares {functions : Std.ExtTreeMap Name Function} {budget' : Nat}
    (henter : ∀ statements,
      Spares budget extra limit (enter (.body statements)) (enter' (.body statements)))
    (target : Value) (arguments : List Value) :
    Spares budget extra limit (call ⟨functions, budget⟩ enter target arguments)
      (call ⟨functions, budget'⟩ enter' target arguments) := by
  cases target with
  | int _ => exact .invalid _ _
  | bool _ => exact .invalid _ _
  | tuple _ => exact .invalid _ _
  | function name =>
    simp only [call]
    rcases functions[name]? with _ | function
    · exact .throw rfl
    intro σ fuel hfuel
    simp only
    rw [bind_of_ok (get_eq_ok _), bind_of_ok (get_eq_ok _)]
    refine Spares.bind (.write (fun σ => { σ with locals := _ }) fun _ _ => rfl) (fun _ => ?_)
      σ fuel hfuel
    refine .bind (henter function.body) fun completion => ?_
    refine .bind (.write (fun τ => { τ with locals := σ.locals }) fun _ _ => rfl) fun _ => ?_
    cases completion <;> exact .pure _

/-- The depth that is enough for an entry when at most `limit` units are left.  A body opens another
level only after it has paid for a statement; a turn of a loop may call a function in its condition
before it has paid for anything. -/
def Entry.need (limit : Nat) : Entry → Nat
  | .body _ => 2 * limit + 1
  | .turn _ _ => 2 * limit + 2

/-- Code spares the extra units if what it enters anew does. -/
theorem eval_spares (functions : Std.ExtTreeMap Name Function) (budget' : Nat) {depth : Nat}
    (henter : ∀ limit entry, Entry.need limit entry ≤ depth →
      Spares budget extra limit (enter entry) (enter' entry)) :
    (∀ e limit, 2 * limit + 1 ≤ depth → Spares budget extra limit
      (Expr.eval ⟨functions, budget⟩ enter e) (Expr.eval ⟨functions, budget'⟩ enter' e)) ∧
    (∀ ss limit, 2 * limit ≤ depth → Spares budget extra limit
      (Stmt.execBlock ⟨functions, budget⟩ enter ss)
      (Stmt.execBlock ⟨functions, budget'⟩ enter' ss)) ∧
    (∀ s limit, 2 * limit ≤ depth → Spares budget extra limit
      (Stmt.exec ⟨functions, budget⟩ enter s) (Stmt.exec ⟨functions, budget'⟩ enter' s)) ∧
    (∀ es limit, 2 * limit + 1 ≤ depth → Spares budget extra limit
      (Expr.evalAll ⟨functions, budget⟩ enter es)
      (Expr.evalAll ⟨functions, budget'⟩ enter' es)) := by
  refine Expr.eval.mutual_induct _ _ _ _
    ?var ?int ?bool ?and ?or ?primitive ?call ?tuple ?begin ?global ?allocate ?allocateOther
    ?assign ?print ?ifElse ?whileDo ?ret ?define ?collect ?setField ?exprsNil ?exprsCons ?blockNil
    ?blockCons
  case var =>
    intro name limit _ σ fuel hfuel
    rw [Expr.eval, Expr.eval, bind_of_ok (get_eq_ok _), bind_of_ok (get_eq_ok _)]
    simp only [Store.withFuel]
    rcases σ.locals[name]? with _ | value
    · simp only
      by_cases hname : functions.contains name = true
      · rw [if_pos hname]
        exact .ended hfuel
      · rw [if_neg hname]
        exact .failed rfl
    · exact .ended hfuel
  case int =>
    intro value limit _
    rw [Expr.eval, Expr.eval]
    exact .pure _
  case bool =>
    intro value limit _
    rw [Expr.eval, Expr.eval]
    exact .pure _
  case and =>
    intro lhs rhs ihl ihr limit hdepth
    rw [Expr.eval, Expr.eval]
    refine .bind (ihl limit hdepth) fun left => .bind (.condition left) fun b => ?_
    cases b
    · exact .pure _
    · exact .bind (ihr limit hdepth) fun right => .bind (.condition right) fun _ => .pure _
  case or =>
    intro lhs rhs ihl ihr limit hdepth
    rw [Expr.eval, Expr.eval]
    refine .bind (ihl limit hdepth) fun left => .bind (.condition left) fun b => ?_
    cases b
    · exact .bind (ihr limit hdepth) fun right => .bind (.condition right) fun _ => .pure _
    · exact .pure _
  case primitive =>
    intro operator operands hand hor ih limit hdepth
    rw [Expr.eval, Expr.eval]
    · exact .bind (ih limit hdepth) fun values =>
        .readHeap fun heap => .primitive heap operator values
    · exact hand
    · exact hor
    · exact hand
    · exact hor
  case call =>
    intro target arguments iht iha limit hdepth
    rw [Expr.eval, Expr.eval]
    refine .bind (iht limit hdepth) fun value => .bind (iha limit hdepth) fun values => ?_
    exact call_spares (fun statements => henter limit (.body statements) hdepth) value values
  case tuple =>
    intro fields ih limit hdepth
    rw [Expr.eval, Expr.eval]
    exact .bind (ih limit hdepth) fun values => .newTuple values
  case begin =>
    intro statements value ihs ihv limit hdepth
    rw [Expr.eval, Expr.eval]
    refine .bind (ihs limit (by omega)) fun completion => ?_
    cases completion with
    | returned result => exact .pure _
    | next => exact ihv limit hdepth
  case global =>
    intro name limit _
    rw [Expr.eval, Expr.eval]
    exact .pure _
  case allocate =>
    intro bytes fields limit _
    rw [Expr.eval, Expr.eval]
    exact .newTuple _
  case allocateOther =>
    intro bytes ty hty limit _
    rw [Expr.eval, Expr.eval]
    · exact .throw rfl
    · exact hty
    · exact hty
  case assign =>
    intro target value ih limit hdepth
    rw [Stmt.exec, Stmt.exec]
    refine .spend fun left hlimit => ?_
    refine .bind (ih left (by omega)) fun result => ?_
    refine .bind (.write (fun σ => { σ with locals := σ.locals.insert target result })
      fun _ _ => rfl) fun _ => .pure _
  case print =>
    intro value ih limit hdepth
    rw [Stmt.exec, Stmt.exec]
    refine .spend fun left hlimit => ?_
    refine .bind (ih left (by omega)) fun result => ?_
    rcases result.word? with _ | word
    · exact .invalid _ _
    · exact .bind (.write (fun σ => { σ with output := σ.output.push word })
        fun _ _ => rfl) fun _ => .pure _
  case ifElse =>
    intro test positive negative iht ihp ihn limit hdepth
    rw [Stmt.exec, Stmt.exec]
    refine .spend fun left hlimit => ?_
    refine .bind (iht left (by omega)) fun result => .bind (.condition result) fun b => ?_
    cases b
    · exact ihn left (by omega)
    · exact ihp left (by omega)
  case whileDo =>
    intro test body limit hdepth
    rw [Stmt.exec, Stmt.exec]
    refine .spend fun left hlimit => ?_
    exact henter left (.turn test body) (by rw [Entry.need]; omega)
  case ret =>
    intro value ih limit hdepth
    rw [Stmt.exec, Stmt.exec]
    refine .spend fun left hlimit => ?_
    exact .bind (ih left (by omega)) fun _ => .pure _
  case define =>
    intro name parameters output body limit _
    rw [Stmt.exec, Stmt.exec]
    exact .spend fun _ _ => .pure _
  case collect =>
    intro bytes limit _
    rw [Stmt.exec, Stmt.exec]
    exact .spend fun _ _ => .pure _
  case setField =>
    intro tuple index value ih limit hdepth
    rw [Stmt.exec, Stmt.exec]
    refine .spend fun left hlimit => ?_
    refine .bind (ih left (by omega)) fun result => ?_
    exact .bind (.setField tuple index result) fun _ => .pure _
  case exprsNil =>
    intro limit _
    rw [Expr.evalAll, Expr.evalAll]
    exact .pure _
  case exprsCons =>
    intro expression expressions ihe ihs limit hdepth
    rw [Expr.evalAll, Expr.evalAll]
    exact .bind (ihe limit hdepth) fun _ => .bind (ihs limit hdepth) fun _ => .pure _
  case blockNil =>
    intro limit _
    rw [Stmt.execBlock, Stmt.execBlock]
    exact .pure _
  case blockCons =>
    intro statement statements ihs ihr limit hdepth
    rw [Stmt.execBlock, Stmt.execBlock]
    refine .bind (ihs limit hdepth) fun completion => ?_
    cases completion with
    | returned value => exact .pure _
    | next => exact ihr limit hdepth

/-- What is entered anew spares the extra units, if the second run may nest entries as deep as the
units of the first one last.  How deep the first one may nest them does not matter. -/
theorem enter_spares (functions : Std.ExtTreeMap Name Function) (budget budget' extra depth : Nat) :
    ∀ depth' limit entry, Entry.need limit entry ≤ depth' → Spares budget extra limit
      (Interpreter.enter ⟨functions, budget⟩ depth entry)
      (Interpreter.enter ⟨functions, budget'⟩ depth' entry) := by
  induction depth with
  | zero => exact fun _ _ _ _ _ _ _ => .ranOut
  | succ depth ih =>
    intro depth' limit entry hneed
    cases depth' with
    | zero => cases entry <;> simp [Entry.need] at hneed
    | succ depth' =>
      obtain ⟨heval, hblock, -, -⟩ := eval_spares functions budget' (ih depth')
      cases entry with
      | body statements =>
        rw [Entry.need] at hneed
        exact hblock statements limit (by omega)
      | turn test body =>
        rw [Entry.need] at hneed
        rw [Interpreter.enter, Interpreter.enter]
        refine .bind (heval test limit (by omega)) fun result => ?_
        refine .bind (.condition result) fun b => ?_
        cases b
        · exact .pure _
        refine .bind (hblock body limit (by omega)) fun completion => ?_
        cases completion with
        | returned value => exact .pure _
        | next =>
          refine .spend fun left hlimit => ?_
          exact ih depth' left (.turn test body) (by rw [Entry.need]; omega)

end Interpreter

open Interpreter

/-! ## Whole programs -/

/-- The words that a program prints when it runs on the given budget, with entries nested at most
`depth` deep. -/
def Program.interpretWithin (program : Program) (depth budget : Nat) :
    Except EvalError (List Word) := do
  let context : Context := ⟨functionTable program, budget⟩
  let (_, state) ←
    (Stmt.execBlock context (enter context depth) program.statements).run { fuel := budget }
  return state.output.toList

/-- What the interpreter allows for is twice the budget, and two more. -/
theorem Program.interpret_eq_interpretWithin (program : Program) (budget : Nat) :
    program.interpret budget = program.interpretWithin (2 * budget + 2) budget :=
  rfl

/-- A run either uses up its budget or has the same end on every larger one, if entries may be
nested deep enough there. -/
theorem Program.interpretWithin_of_le (program : Program) {n m depth' : Nat} (h : n ≤ m)
    (depth : Nat) (hdepth : 2 * n ≤ depth') :
    program.interpretWithin depth n = .error (.outOfFuel n) ∨
      program.interpretWithin depth' m = program.interpretWithin depth n ∧
        ∀ b, program.interpretWithin depth n ≠ .error (.outOfFuel b) := by
  obtain ⟨extra, rfl⟩ := Nat.exists_eq_add_of_le' h
  obtain ⟨-, hblock, -, -⟩ := eval_spares (functionTable program) (extra + n)
    (enter_spares (functionTable program) n (extra + n) extra depth depth')
  have hresult := hblock program.statements n hdepth {} n (Nat.le_refl n)
  have hrun : ∀ depth budget, program.interpretWithin depth budget =
      (Stmt.execBlock ⟨functionTable program, budget⟩
        (enter ⟨functionTable program, budget⟩ depth) program.statements
        (Store.withFuel {} budget)).map fun p => p.2.output.toList := fun _ _ => rfl
  rw [hrun, hrun]
  generalize Stmt.execBlock _ _ _ (Store.withFuel {} n) = r at hresult ⊢
  generalize Stmt.execBlock _ _ _ (Store.withFuel {} (extra + n)) = r' at hresult ⊢
  rcases hresult with hleft | herror | _
  · exact .inr ⟨rfl, fun b hb => by cases hb⟩
  · refine .inr ⟨rfl, fun b hb => ?_⟩
    cases hb
    cases herror
  · exact .inl rfl

/-- The depth with which a run starts is never what ends it: any greater one will do as well. -/
theorem Program.interpretWithin_eq_interpret (program : Program) {depth budget : Nat}
    (h : 2 * budget ≤ depth) :
    program.interpretWithin depth budget = program.interpret budget := by
  rw [Program.interpret_eq_interpretWithin]
  -- each of the two runs may nest entries deep enough for the other one
  have hdepth : 2 * budget ≤ 2 * budget + 2 := Nat.le_add_right _ 2
  rcases program.interpretWithin_of_le (Nat.le_refl budget) depth hdepth with hout | ⟨hsame, -⟩
  · rcases program.interpretWithin_of_le (Nat.le_refl budget) (2 * budget + 2) h with
      hout' | ⟨hsame, -⟩
    · rw [hout, hout']
    · exact hsame
  · exact hsame.symm

/-- More budget never changes an answer: a run that does not use up its budget has the same end on
every larger one, be it an output or an error, and a budget that is used up is used up by every
run on a smaller one. -/
theorem Program.interpret_of_le (program : Program) {n m : Nat} (h : n ≤ m) :
    (program.interpret n ≠ .error (.outOfFuel n) → program.interpret m = program.interpret n) ∧
      ∀ budget, program.interpret m = .error (.outOfFuel budget) →
        program.interpret n = .error (.outOfFuel n) := by
  have hdepth : 2 * n ≤ 2 * m + 2 := by omega
  simp only [Program.interpret_eq_interpretWithin]
  rcases program.interpretWithin_of_le h (2 * n + 2) hdepth with hout | ⟨hsame, hnever⟩
  · exact ⟨fun hne => absurd hout hne, fun _ _ => hout⟩
  · exact ⟨fun _ => hsame, fun budget hout => absurd (hsame.symm.trans hout) (hnever budget)⟩

/-- A loop around a function that calls itself; at the end it prints what it is told to. -/
def Program.descents (last : Expr) : Program := ⟨[
  .define "descend" [("n", .int)] .int [
    .ifElse (.primitive .gt [.var "n", .int 0])
      [.ret (.call (.var "descend") [.primitive .sub [.var "n", .int 1]])] [],
    .ret (.var "n")],
  .assign "i" (.int 0),
  .whileDo (.primitive .lt [.var "i", .int 3]) [
    .print (.call (.var "descend") [.var "i"]),
    .assign "i" (.primitive .add [.var "i", .int 1])],
  .print last]⟩

/-- A budget that is enough, with and without an error, and two that are not. -/
theorem Program.interpret_of_le_descents :
    (Program.descents (.var "i")).interpret 25 = .ok [0, 0, 0, 3] ∧
    (Program.descents (.var "i")).interpret defaultBudget = .ok [0, 0, 0, 3] ∧
    (Program.descents (.var "j")).interpret 25 = .error (.unboundVariable "j") ∧
    (Program.descents (.var "j")).interpret defaultBudget = .error (.unboundVariable "j") ∧
    (Program.descents (.var "i")).interpret 24 = .error (.outOfFuel 24) ∧
    (Program.descents (.var "i")).interpret 9 = .error (.outOfFuel 9) := by
  have hend : (Program.descents (.var "i")).interpret 25 = .ok [0, 0, 0, 3] := by decide +kernel
  have hfail : (Program.descents (.var "j")).interpret 25 = .error (.unboundVariable "j") := by
    decide +kernel
  have hout : (Program.descents (.var "i")).interpret 24 = .error (.outOfFuel 24) := by
    decide +kernel
  have hle : 25 ≤ defaultBudget := by decide
  refine ⟨hend, ?_, hfail, ?_, hout, ?_⟩
  · rw [(Program.interpret_of_le _ hle).1 (by simp [hend]), hend]
  · rw [(Program.interpret_of_le _ hle).1 (by simp [hfail]), hfail]
  · exact (Program.interpret_of_le _ (by decide)).2 24 hout

end TupleLang
