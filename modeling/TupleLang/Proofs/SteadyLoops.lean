import TupleLang.Proofs.NormalForm

/-!
# Loops whose conditions do not return

In a flat program statements stand inside an expression only where the condition of a loop needs
them.  If a function could return from there, the value would become that of the condition, while
control-flow code would leave the function.  `Stmt.isSteady` rules this out.

A program without `begin` is steady once it is flat, since a value never returns on its way
(`Program.areSteady_flatten`), and explicit allocation adds nothing that returns
(`Program.areSteady_exposeAllocation`).  So every run of such a program is a steady one
(`Program.Prints.steady`).
-/

namespace TupleLang

open Stateful Interpreter

mutual

/-- Whether nothing returns from inside the condition of a loop; `inside` says whether the statement
itself stands in such a condition. -/
def Stmt.isSteady (inside : Bool) : Stmt → Bool
  | .ret _ => !inside
  | .ifElse _ positive negative => Stmt.areSteady inside positive && Stmt.areSteady inside negative
  | .whileDo (.begin statements _) body =>
    Stmt.areSteady true statements && Stmt.areSteady inside body
  | .whileDo _ body => Stmt.areSteady inside body
  | .define _ _ _ body => Stmt.areSteady inside body
  | .assign _ _ | .print _ | .collect _ | .setField _ _ _ => true

/-- Whether nothing in a list of statements returns from inside the condition of a loop. -/
def Stmt.areSteady (inside : Bool) : List Stmt → Bool
  | [] => true
  | statement :: statements => statement.isSteady inside && Stmt.areSteady inside statements

end

attribute [local simp] Stmt.isSteady Stmt.areSteady

/-- A block is steady if its statements are. -/
theorem Stmt.areSteady_iff {inside : Bool} {ss : List Stmt} :
    Stmt.areSteady inside ss = true ↔ ∀ s ∈ ss, s.isSteady inside = true := by
  induction ss with
  | nil => simp
  | cons s ss ih => simp [ih]

/-- What never returns at all is steady anywhere. -/
theorem isSteady_of_inside (inside : Bool) :
    TreeInduction (fun _ => True)
      (fun st => st.isSteady true = true → st.isSteady inside = true) where
  var _ := trivial
  const _ := trivial
  primitive _ _ _ := trivial
  call _ _ _ _ := trivial
  tuple _ _ := trivial
  begin _ _ _ _ := trivial
  global _ := trivial
  allocate _ _ := trivial
  assign _ _ _ _ := rfl
  print _ _ _ := rfl
  ifElse condition positive negative _ ihp ihn h := by
    rw [Stmt.isSteady, Bool.and_eq_true] at h ⊢
    have hpositive := Stmt.areSteady_iff.mp h.1
    have hnegative := Stmt.areSteady_iff.mp h.2
    exact ⟨Stmt.areSteady_iff.mpr fun st hst => ihp st hst (hpositive st hst),
      Stmt.areSteady_iff.mpr fun st hst => ihn st hst (hnegative st hst)⟩
  whileDo condition body _ ih h := by
    have hbody : Stmt.areSteady true body = true → Stmt.areSteady inside body = true :=
      fun hbody => Stmt.areSteady_iff.mpr fun st hst =>
        ih st hst (Stmt.areSteady_iff.mp hbody st hst)
    cases condition with
    | «begin» statements value =>
      rw [Stmt.isSteady, Bool.and_eq_true] at h ⊢
      exact ⟨h.1, hbody h.2⟩
    | _ => exact hbody h
  ret _ _ h := nomatch h
  define name parameters output body ih h :=
    Stmt.areSteady_iff.mpr fun st hst => ih st hst (Stmt.areSteady_iff.mp h st hst)
  collect _ _ := rfl
  setField _ _ _ _ _ := rfl

/-! ## Flattening -/

namespace Flattened

/-- The condition of a loop whose bindings never return. -/
theorem isSteady_asLoopCondition {test : Flattened} {body : List Stmt}
    (hbindings : ∀ st ∈ test.bindings, st.isSteady true = true)
    (hvalue : test.value.isSimple = true) (hbody : Stmt.areSteady false body = true) :
    (Stmt.whileDo test.asLoopCondition body).isSteady false = true := by
  unfold asLoopCondition
  cases test.bindings.isEmpty with
  | true =>
    obtain ⟨bindings, value⟩ := test
    cases value with
    | «begin» statements value => simp [Expr.isSimple, Expr.isBegin] at hvalue
    | _ => exact hbody
  | false =>
    rw [if_neg Bool.false_ne_true, Stmt.isSteady, Bool.and_eq_true]
    exact ⟨Stmt.areSteady_iff.mpr hbindings, hbody⟩

end Flattened

/-- Flattening an expression without `begin` makes statements that never return; flattening a
statement without `begin` makes steady ones. -/
theorem flatInvariant_isSteady : FlatInvariant (!·.isBegin) (fun _ => true) (fun _ => True)
    (fun inside st => st.isSteady inside = true) where
  outside st := (isSteady_of_inside false).stmt st
  inside _ _ h := by cases h
  atom _ _ := trivial
  primitive _ _ _ _ _ _ _ := trivial
  call _ _ _ _ _ _ _ _ := trivial
  tuple _ _ := trivial
  global _ _ := trivial
  allocate _ _ := trivial
  assign _ _ _ _ _ := rfl
  ifElse inside _ _ _ _ _ hpositive hnegative := by
    rw [Stmt.isSteady, Bool.and_eq_true]
    exact ⟨Stmt.areSteady_iff.mpr hpositive, Stmt.areSteady_iff.mpr hnegative⟩
  whileDo _ _ hbindings htest _ hbody := Flattened.isSteady_asLoopCondition hbindings
    (Expr.isSimple_of_isSimpleTest htest) (Stmt.areSteady_iff.mpr hbody)
  print _ _ := rfl
  ret _ _ _ _ := rfl
  define _ _ _ _ h := Stmt.areSteady_iff.mpr h
  collect _ := rfl
  setField _ _ _ _ := rfl

/-- The flat form of a program without `begin` is steady. -/
theorem Program.areSteady_flatten {program flat : Program} {s s' : NameSupply}
    (hbegin : program.isBeginFree = true) (h : program.flatten s = .ok (flat, s')) :
    Stmt.areSteady false flat.statements = true := by
  exact Stmt.areSteady_iff.mpr (flatInvariant_isSteady.forall_mem_flatten hbegin h)

/-! ## Explicit allocations -/

/-- The code that builds tuples never returns. -/
theorem exposureInvariant_isSteady : ExposureInvariant
    (fun inside st => st.isSteady inside = true) (fun inside st => st.isSteady inside = true) where
  save _ _ _ _ := rfl
  reserveRoom _ _ _ _ _ := by simp [Allocation.reserveRoom]
  allocate _ _ _ _ := rfl
  setField _ _ _ _ := rfl
  keep _ _ _ h := h
  ifElse _ _ _ _ h := by
    rw [Stmt.isSteady, Bool.and_eq_true] at h
    refine ⟨Stmt.areSteady_iff.mp h.1, Stmt.areSteady_iff.mp h.2, ?_⟩
    intro positive' negative' hpositive hnegative
    rw [Stmt.isSteady, Bool.and_eq_true]
    exact ⟨Stmt.areSteady_iff.mpr hpositive, Stmt.areSteady_iff.mpr hnegative⟩
  whileBegin _ _ _ _ h := by
    rw [Stmt.isSteady, Bool.and_eq_true] at h
    refine ⟨Stmt.areSteady_iff.mp h.1, Stmt.areSteady_iff.mp h.2, ?_⟩
    intro statements' body' _ hstatements hbody
    rw [Stmt.isSteady, Bool.and_eq_true]
    exact ⟨Stmt.areSteady_iff.mpr hstatements, Stmt.areSteady_iff.mpr hbody⟩
  whileDo inside condition body hbegin h := by
    have hsteady (body : List Stmt) :
        (Stmt.whileDo condition body).isSteady inside = Stmt.areSteady inside body := by
      cases condition with
      | «begin» => cases hbegin
      | _ => rfl
    rw [hsteady] at h
    refine ⟨Stmt.areSteady_iff.mp h, fun body' hbody' => ?_⟩
    rw [hsteady]
    exact Stmt.areSteady_iff.mpr hbody'
  define _ _ _ _ h := ⟨Stmt.areSteady_iff.mp h, fun _ hbody => Stmt.areSteady_iff.mpr hbody⟩

/-- Making allocations explicit keeps a program steady. -/
theorem Program.areSteady_exposeAllocation {program exposed : Program}
    {environment : TypeEnvironment} {s s' : NameSupply}
    (hsteady : Stmt.areSteady false program.statements = true)
    (h : program.exposeAllocation environment s = .ok (exposed, s')) :
    Stmt.areSteady false exposed.statements = true := by
  exact Stmt.areSteady_iff.mpr
    (exposureInvariant_isSteady.forall_mem_exposeAllocation (Stmt.areSteady_iff.mp hsteady) h)

/-! ## Runs -/

namespace Interpreter

/-- The task is in normal form and steady. -/
def Task.IsSteady (inside : Bool) : Task → Prop
  | .expr e => e.isSimple = true ∨ ∃ ss value, e = .begin ss value ∧
    Stmt.areNormal false ss = true ∧ Stmt.areSteady true ss = true ∧ value.isSimple = true
  | .exprs es => ∀ e ∈ es, e.isAtomic = true
  | .stmt st => st.isNormal false = true ∧ st.isSteady inside = true
  | .block ss => Stmt.areNormal false ss = true ∧ Stmt.areSteady inside ss = true
  | .turn condition body => (Stmt.whileDo condition body).isNormal false = true ∧
    (Stmt.whileDo condition body).isSteady inside = true

namespace Task.IsSteady

variable {inside : Bool}

/-- Atoms are steady. -/
theorem of_isAtomic {e : Expr} (h : e.isAtomic = true) : (Task.expr e).IsSteady inside :=
  .inl (Expr.isSimple_of_isAtomic h)

/-- The operands of an operator without statements are atoms. -/
theorem primitive_inv {operator : Operator} {operands : List Expr}
    (h : (Task.expr (.primitive operator operands)).IsSteady inside) :
    ∀ e ∈ operands, e.isAtomic = true := by
  rcases h with hsimple | ⟨_, _, he, -⟩
  · rw [Expr.isSimple, Bool.and_eq_true, Expr.isFlat] at hsimple
    exact List.all_eq_true.mp hsimple.1
  · cases he

/-- Calls have atoms as parts. -/
theorem call_inv {target : Expr} {arguments : List Expr}
    (h : (Task.expr (.call target arguments)).IsSteady inside) :
    target.isAtomic = true ∧ ∀ e ∈ arguments, e.isAtomic = true := by
  rcases h with hsimple | ⟨_, _, he, -⟩
  · rw [Expr.isSimple, Bool.and_eq_true, Expr.isFlat, Bool.and_eq_true] at hsimple
    exact ⟨hsimple.1.1, List.all_eq_true.mp hsimple.1.2⟩
  · cases he

/-- Tuples have atoms as fields. -/
theorem tuple_inv {fields : List Expr} (h : (Task.expr (.tuple fields)).IsSteady inside) :
    ∀ e ∈ fields, e.isAtomic = true := by
  rcases h with hsimple | ⟨_, _, he, -⟩
  · rw [Expr.isSimple, Bool.and_eq_true, Expr.isFlat] at hsimple
    exact List.all_eq_true.mp hsimple.1
  · cases he

/-- The parts of a sequence. -/
theorem begin_inv {ss : List Stmt} {value : Expr}
    (h : (Task.expr (.begin ss value)).IsSteady inside) :
    (Task.block ss).IsSteady true ∧ (Task.expr value).IsSteady inside := by
  rcases h with hsimple | ⟨_, _, he, hnormal, hsteady, hvalue⟩
  · simp [Expr.isSimple, Expr.isBegin] at hsimple
  · cases he
    exact ⟨⟨hnormal, hsteady⟩, .inl hvalue⟩

/-- The parts of a conditional. -/
theorem ifElse_inv {condition : Expr} {positive negative : List Stmt}
    (h : (Task.stmt (.ifElse condition positive negative)).IsSteady inside) :
    (Task.expr condition).IsSteady inside ∧ (Task.block positive).IsSteady inside ∧
      (Task.block negative).IsSteady inside := by
  obtain ⟨hnormal, hsteady⟩ := h
  rw [Stmt.isNormal, Bool.and_eq_true, Bool.and_eq_true] at hnormal
  rw [Stmt.isSteady, Bool.and_eq_true] at hsteady
  exact ⟨.inl (Expr.isSimple_of_isSimpleTest hnormal.1.1), ⟨hnormal.1.2, hsteady.1⟩,
    ⟨hnormal.2, hsteady.2⟩⟩

/-- The parts of a turn. -/
theorem turn_inv {condition : Expr} {body : List Stmt}
    (h : (Task.turn condition body).IsSteady inside) :
    (Task.expr condition).IsSteady inside ∧ (Task.block body).IsSteady inside := by
  obtain ⟨hnormal, hsteady⟩ := h
  cases condition with
  | «begin» statements value =>
    simp only [Stmt.isNormal, Bool.and_eq_true] at hnormal
    rw [Stmt.isSteady, Bool.and_eq_true] at hsteady
    obtain ⟨⟨⟨-, hstatements⟩, hvalue⟩, hbody⟩ := hnormal
    exact ⟨.inr ⟨statements, value, rfl, hstatements, hsteady.1,
      Expr.isSimple_of_isSimpleTest hvalue⟩, hbody, hsteady.2⟩
  | _ =>
    simp only [Stmt.isNormal, Bool.and_eq_true] at hnormal
    exact ⟨.inl (Expr.isSimple_of_isSimpleTest hnormal.1), hnormal.2, hsteady⟩

/-- The parts of a block. -/
theorem block_inv {st : Stmt} {ss : List Stmt} (h : (Task.block (st :: ss)).IsSteady inside) :
    (Task.stmt st).IsSteady inside ∧ (Task.block ss).IsSteady inside := by
  obtain ⟨hnormal, hsteady⟩ := h
  rw [Stmt.areNormal, Bool.and_eq_true] at hnormal
  rw [Stmt.areSteady, Bool.and_eq_true] at hsteady
  exact ⟨⟨hnormal.1, hsteady.1⟩, hnormal.2, hsteady.2⟩

end Task.IsSteady

/-- What a task inside the condition of a loop may end with. -/
def Outcome.MayEnd (inside : Bool) (outcome : Outcome) : Prop :=
  inside = true → ∀ value, outcome ≠ .ended (.returned value)

/-- Every run of a steady task is a steady run. -/
theorem Runs.steady {steady : Bool} {functions : Std.ExtTreeMap Name Function}
    (hfunctions : ∀ {name : Name} {f : Function}, functions[name]? = some f →
      (Task.block f.body).IsSteady false)
    {task : Task} {σ σ' : Store} {outcome : Outcome}
    (h : Runs steady functions task σ outcome σ') (inside : Bool)
    (hsteady : task.IsSteady inside) :
    Runs true functions task σ outcome σ' ∧ outcome.MayEnd inside := by
  -- A task that ends with a value, or with the next statement, may always end so.
  have hvalue (inside : Bool) (value : Value) : (Outcome.value value).MayEnd inside :=
    fun _ _ => nofun
  have hvalues (inside : Bool) (values : List Value) : (Outcome.values values).MayEnd inside :=
    fun _ _ => nofun
  have hnext (inside : Bool) : (Outcome.ended .next).MayEnd inside := fun _ _ => nofun
  induction h generalizing inside with
  | «local» h => exact ⟨.local h, hvalue _ _⟩
  | function h hname => exact ⟨.function h hname, hvalue _ _⟩
  | int value => exact ⟨.int value, hvalue _ _⟩
  | bool value => exact ⟨.bool value, hvalue _ _⟩
  | andTrue _ _ ihl ihr =>
    have hatoms := hsteady.primitive_inv
    have hleft := (ihl inside (.of_isAtomic (hatoms _ (by simp)))).1
    have hright := (ihr inside (.of_isAtomic (hatoms _ (by simp)))).1
    exact ⟨.andTrue hleft hright, hvalue _ _⟩
  | andFalse _ ihl =>
    have hatoms := hsteady.primitive_inv
    exact ⟨.andFalse (ihl inside (.of_isAtomic (hatoms _ (by simp)))).1, hvalue _ _⟩
  | orTrue _ ihl =>
    have hatoms := hsteady.primitive_inv
    exact ⟨.orTrue (ihl inside (.of_isAtomic (hatoms _ (by simp)))).1, hvalue _ _⟩
  | orFalse _ _ ihl ihr =>
    have hatoms := hsteady.primitive_inv
    have hleft := (ihl inside (.of_isAtomic (hatoms _ (by simp)))).1
    have hright := (ihr inside (.of_isAtomic (hatoms _ (by simp)))).1
    exact ⟨.orFalse hleft hright, hvalue _ _⟩
  | primitive hstrict _ hresult ih =>
    have hoperands := (ih inside hsteady.primitive_inv).1
    exact ⟨.primitive hstrict hoperands hresult, hvalue _ _⟩
  | call _ _ hfunction _ iht iha ihb =>
    obtain ⟨htarget, harguments⟩ := hsteady.call_inv
    have htarget := (iht inside (.of_isAtomic htarget)).1
    have harguments := (iha inside harguments).1
    exact ⟨.call htarget harguments hfunction (ihb false (hfunctions hfunction)).1, hvalue _ _⟩
  | tuple _ ih => exact ⟨.tuple (ih inside hsteady.tuple_inv).1, hvalue _ _⟩
  | beginReturned _ _ ih =>
    -- The statements stand inside a condition, so they do not return.
    obtain ⟨hstatements, -⟩ := hsteady.begin_inv
    exact absurd rfl ((ih true hstatements).2 rfl _)
  | beginNext _ _ ihs ihv =>
    obtain ⟨hstatements, hresult⟩ := hsteady.begin_inv
    exact ⟨.beginNext (ihs true hstatements).1 (ihv inside hresult).1, hvalue _ _⟩
  | global name => exact ⟨.global name, hvalue _ _⟩
  | allocate bytes fields => exact ⟨.allocate bytes fields, hvalue _ _⟩
  | exprsNil => exact ⟨.exprsNil, hvalues _ _⟩
  | exprsCons _ _ ihv ihs =>
    obtain ⟨hfirst, hrest⟩ := List.forall_mem_cons.mp hsteady
    have hfirst := (ihv inside (.of_isAtomic hfirst)).1
    have hrest := (ihs inside hrest).1
    exact ⟨.exprsCons hfirst hrest, hvalues _ _⟩
  | assign _ ih =>
    have hnormal := hsteady.1
    rw [Stmt.isNormal, Bool.and_eq_true] at hnormal
    exact ⟨.assign (ih inside (.inl hnormal.1)).1, hnext _⟩
  | print _ hword ih => exact ⟨.print (ih inside (.of_isAtomic hsteady.1)).1 hword, hnext _⟩
  | ifTrue _ _ ihc ihs =>
    obtain ⟨hcondition, hpositive, -⟩ := hsteady.ifElse_inv
    obtain ⟨hrun, hend⟩ := ihs inside hpositive
    exact ⟨.ifTrue (ihc inside hcondition).1 hrun, hend⟩
  | ifFalse _ _ ihc ihs =>
    obtain ⟨hcondition, -, hnegative⟩ := hsteady.ifElse_inv
    obtain ⟨hrun, hend⟩ := ihs inside hnegative
    exact ⟨.ifFalse (ihc inside hcondition).1 hrun, hend⟩
  | whileDo _ ih =>
    obtain ⟨hrun, hend⟩ := ih inside hsteady
    exact ⟨.whileDo hrun, hend⟩
  | ret _ ih =>
    obtain ⟨hnormal, hinside⟩ := hsteady
    refine ⟨.ret (ih inside (.inl (Stmt.isSimple_of_isNormal_ret hnormal))).1, ?_⟩
    rintro rfl
    cases hinside
  | define name parameters output body => exact ⟨.define name parameters output body, hnext _⟩
  | collect bytes => exact ⟨.collect bytes, hnext _⟩
  | setField _ htuple hindex ih =>
    exact ⟨.setField (ih inside (.of_isAtomic hsteady.1)).1 htuple hindex, hnext _⟩
  | blockNil => exact ⟨.blockNil, hnext _⟩
  | blockReturned _ ih =>
    obtain ⟨hrun, hend⟩ := ih inside hsteady.block_inv.1
    exact ⟨.blockReturned hrun, hend⟩
  | blockNext _ _ ihs ihr =>
    obtain ⟨hfirst, hrest⟩ := hsteady.block_inv
    obtain ⟨hrun, hend⟩ := ihr inside hrest
    exact ⟨.blockNext (ihs inside hfirst).1 hrun, hend⟩
  | turnStop _ ihc => exact ⟨.turnStop (ihc inside hsteady.turn_inv.1).1, hnext _⟩
  | turnReturned _ _ ihc ihs =>
    obtain ⟨hcondition, hbody⟩ := hsteady.turn_inv
    obtain ⟨hrun, hend⟩ := ihs inside hbody
    exact ⟨.turnReturned (ihc inside hcondition).1 hrun, hend⟩
  | turnNext _ _ _ ihc ihs iht =>
    obtain ⟨hcondition, hbody⟩ := hsteady.turn_inv
    obtain ⟨hrun, hend⟩ := iht inside hsteady
    exact ⟨.turnNext (ihc inside hcondition).1 (ihs inside hbody).1 hrun, hend⟩

end Interpreter

/-- A run of a program in normal form that is steady is a steady run. -/
theorem Program.Prints.steady {steady : Bool} {program : Program} {output : List Word}
    (hnormal : program.isNormal false = true)
    (hsteady : Stmt.areSteady false program.statements = true)
    (h : program.Prints steady output) : program.Prints true output := by
  have hbodies : ∀ f ∈ program.functions, (Task.block f.body).IsSteady false := by
    intro f hf
    refine ⟨program.areNormal_body hnormal hf, ?_⟩
    obtain ⟨st, hst, hdefines⟩ := List.mem_filterMap.mp hf
    have hst := Stmt.areSteady_iff.mp hsteady st hst
    cases st with
    | define name parameters output body =>
      cases hdefines
      exact hst
    | _ => cases hdefines
  have htable : TablesMatch (fun f f' => f' = f ∧ (Task.block f.body).IsSteady false)
      (functionTable program) (functionTable program) :=
    tablesMatch_foldl (fun _ _ hf => by rw [hf.1])
      (List.forall₂_same.mpr fun f hf => ⟨rfl, hbodies f hf⟩) fun _ => .none
  obtain ⟨completion, σ, hrun, houtput⟩ := h
  have hsteadily := hrun.steady
    (fun hf => (htable.find hf).choose_spec.2.2) false ⟨hnormal, hsteady⟩
  exact ⟨completion, σ, hsteadily.1, houtput⟩

end TupleLang
