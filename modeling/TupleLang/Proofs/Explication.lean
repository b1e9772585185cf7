import TupleLang.Proofs.BlockLabels
import TupleLang.Proofs.FlowRuns

/-!
# Control-flow code does what the program does

Code is made back to front: a statement is turned into code together with the code that follows
it.  So a run of the code is put together from its end as well: if the code that follows a
statement runs from the store that the statement left, then the code of the statement and of what
follows runs from the store before it (`Flow.Continues`).  A statement that returned needs nothing
to follow it (`Flow.Resumes`), and a test needs only the label it goes on to (`Expr.BranchesTo`).

`Flow.Function.Includes` says that a function has all blocks that a part of it asked for.  With it
one induction over a run (`Interpreter.Runs.flowsTo`) covers expressions, statements and loops, and
`Program.Prints.toFlow` is the result for programs.
-/

namespace TupleLang

open TupleLang.Flow (AddsBlocks)

/-! ## What the code does -/

namespace Flow

/-- The function has the given blocks, each under its label. -/
def Function.Resolves (function : Function) (blocks : List Block) : Prop :=
  ∀ block ∈ blocks, function.code? block.label = some block.statements

/-- What is found among more blocks is found among fewer. -/
theorem Function.Resolves.before {function : Function} {blocks blocks' : List Block}
    {s s' : NameSupply} (h : function.Resolves blocks') (hadds : Adds blocks blocks' s s') :
    function.Resolves blocks :=
  fun block hblock => h block (hadds.subset block hblock)

/-- The function has all blocks that the computation makes, and the result of the computation is
the given one. -/
def Function.Includes {α : Type} (function : Function) (m : Building α) (a : α) : Prop :=
  ∃ blocks s blocks' s', m blocks s = .ok ((a, blocks'), s') ∧ function.Resolves blocks'

namespace Function.Includes

variable {α β : Type} {function : Function}

/-- The function includes both of two steps. -/
theorem bind_inv {m : Building α} {f : α → Building β} {b : β} (hadds : ∀ a, AddsBlocks (f a))
    (h : function.Includes (m >>= f) b) :
    ∃ a, function.Includes m a ∧ function.Includes (f a) b := by
  obtain ⟨blocks, s, blocks', s', h, hresolves⟩ := h
  obtain ⟨a, blocks₁, s₁, ha, hb⟩ := bind_eq_ok.mp h
  exact ⟨a, ⟨_, _, _, _, ha, hresolves.before (hadds a _ _ _ _ _ hb)⟩, _, _, _, _, hb, hresolves⟩

/-- A step without blocks succeeded. -/
theorem of_lift {x : Except CompileError α} {a : α} (h : function.Includes (liftM x) a) :
    x = .ok a := by
  obtain ⟨blocks, s, blocks', s', h, -⟩ := h
  exact (liftM_eq_ok.mp h).1

/-- A result is what it is. -/
theorem of_pure {a b : α} (h : function.Includes (Pure.pure a) b) : b = a := by
  obtain ⟨blocks, s, blocks', s', h, -⟩ := h
  cases h
  rfl

/-- A computation that can fail, and then the rest. -/
theorem lift_bind_inv {x : Except CompileError α} {f : α → Building β} {b : β}
    (hadds : ∀ a, AddsBlocks (f a)) (h : function.Includes (liftM x >>= f) b) :
    ∃ a, x = .ok a ∧ function.Includes (f a) b := by
  obtain ⟨a, ha, hb⟩ := h.bind_inv hadds
  exact ⟨a, ha.of_lift, hb⟩

/-- Steps without blocks succeeded one by one. -/
theorem of_mapM_lift {γ : Type} {f : γ → Except CompileError α} {cs : List γ} {as : List α}
    (h : function.Includes (cs.mapM (liftM ∘ f)) as) : cs.mapM f = .ok as := by
  induction cs generalizing as with
  | nil =>
    cases h.of_pure
    rfl
  | cons c cs ih =>
    rw [List.mapM_cons] at h
    obtain ⟨a, ha, h⟩ := h.lift_bind_inv fun _ =>
      (AddsBlocks.mapM_lift f cs).bind fun _ => .pure _
    obtain ⟨rest, hrest, h⟩ := h.bind_inv fun _ => .pure _
    cases h.of_pure
    rw [List.mapM_cons, ha, ih hrest]
    rfl

/-- A new block is found by its label. -/
theorem of_newBlock {code : List Stmt} {label : Name}
    (h : function.Includes (newBlock code) label) : function.code? label = some code := by
  obtain ⟨blocks, s, blocks', s', h, hresolves⟩ := h
  cases h
  exact hresolves _ List.mem_cons_self

/-- Code runs from its label as it does from its start. -/
theorem runs_labelFor {context : Context} {code : List Stmt}
    {label : Name} {σ σ' : Interpreter.Store} {result : Value}
    (h : function.Includes (labelFor code) label)
    (hcode : Runs context (.code function code) σ result σ') :
    ∃ code', function.code? label = some code' ∧
      Runs context (.code function code') σ result σ' := by
  unfold labelFor at h
  split at h
  · cases h.of_pure
    cases hcode with
    | goto hlabel hrest => exact ⟨_, hlabel, hrest⟩
  · exact ⟨code, h.of_newBlock, hcode⟩

end Function.Includes

end Flow

open Interpreter

section Meaning

variable {steady : Bool} {functions : Std.ExtTreeMap Name Function} {context : Flow.Context}
  {σ σ' : Store} {atoms : List Flow.Atom} {operator : Operator} {test : Bool} {rhs e : Expr}
  {vs : List Value} {v : Value}

/-- The atoms of two operands. -/
theorem Expr.toAtom_pair {lhs : Expr} (h : [lhs, rhs].mapM Expr.toAtom = .ok atoms) :
    ∃ left right, lhs.toAtom = .ok left ∧ rhs.toAtom = .ok right ∧ atoms = [left, right] := by
  rw [List.mapM_cons, Except.bind_eq_ok] at h
  obtain ⟨left, hleft, h⟩ := h
  obtain ⟨rest, hrest, h⟩ := Except.bind_eq_ok.mp h
  cases h
  rw [List.mapM_cons, Except.bind_eq_ok] at hrest
  obtain ⟨right, hright, hrest⟩ := hrest
  cases hrest
  exact ⟨left, right, hleft, hright, rfl⟩

/-- The operand of a negation. -/
theorem Value.not_eq_ok {heap : Heap} (h : Value.primitive heap .not vs = .ok (.bool test)) :
    vs = [.bool !test] := by
  match vs, h with
  | [.bool a], h =>
    cases h
    rw [Bool.not_not]

/-- The operands of a comparison. -/
theorem Value.comparison_eq_ok {heap : Heap} (hop : operator.isComparison = true)
    (h : Value.primitive heap operator vs = .ok v) : ∃ a b, vs = [a, b] := by
  unfold Value.primitive at h
  split at h <;> first | exact ⟨_, _, rfl⟩ | cases hop | cases h

/-- Code that branches on the expression goes the way of the truth value, from one store to
another. -/
def Expr.BranchesTo (context : Flow.Context) (e : Expr) (σ : Store) (test : Bool)
    (σ' : Store) : Prop :=
  ∀ (function : Flow.Function) positive negative code,
    function.Includes (e.toBranch positive negative) code → ∀ result σ'',
    Flow.Runs context (.code function [.goto (if test then positive else negative)]) σ'
      result σ'' → Flow.Runs context (.code function code) σ result σ''

/-- The negation branches the other way round. -/
theorem Expr.BranchesTo.not (h : e.BranchesTo context σ (!test) σ') :
    (Expr.primitive .not [e]).BranchesTo context σ test σ' := by
  intro function positive negative code hcode result σ'' hgoto
  refine h function negative positive code hcode result σ'' ?_
  cases test <;> exact hgoto

/-- The right operand of `and` and `or`, behind a label of its own. -/
theorem Expr.BranchesTo.runs_right {function : Flow.Function} {positive negative : Name}
    {code : List Flow.Stmt} {target : Name → Flow.Building (List Flow.Stmt)}
    (htarget : ∀ label, AddsBlocks (target label)) (h : rhs.BranchesTo context σ test σ')
    (hcode : function.Includes (do
      let right ← Flow.labelFor (← rhs.toBranch positive negative)
      target right) code) {result : Value} {σ'' : Store}
    (hgoto : Flow.Runs context
      (.code function [.goto (if test then positive else negative)]) σ' result σ'') :
    ∃ right, function.Includes (target right) code ∧
      Flow.Runs context (.code function [.goto right]) σ result σ'' := by
  obtain ⟨rcode, hrcode, hcode⟩ := hcode.bind_inv fun rcode =>
    (AddsBlocks.labelFor rcode).bind htarget
  obtain ⟨right, hright, hcode⟩ := hcode.bind_inv htarget
  obtain ⟨code', hlabel, hrun⟩ := hright.runs_labelFor (h _ _ _ _ hrcode _ _ hgoto)
  exact ⟨right, hcode, .goto hlabel hrun⟩

/-! ### Atoms and operations -/

variable (hnames : ∀ name, context.functionNames.contains name = functions.contains name)
include hnames

/-- The value of an expression that is an atom. -/
theorem Expr.value?_toAtom {atom : Flow.Atom} (hatom : e.toAtom = .ok atom)
    (h : Runs steady functions (.expr e) σ (.value v) σ') :
    σ' = σ ∧ atom.value? context σ.locals = some v := by
  cases e with
  | var name =>
    cases hatom
    cases h with
    | «local» h => exact ⟨rfl, by rw [Flow.Atom.value?, h]⟩
    | function h hname =>
      refine ⟨rfl, ?_⟩
      rw [Flow.Atom.value?, h]
      exact if_pos ((hnames name).trans hname)
  | const value =>
    cases hatom
    cases h <;> exact ⟨rfl, rfl⟩
  | _ => cases hatom

/-- The values of several of them. -/
theorem Expr.values?_toAtoms {es : List Expr} (hatoms : es.mapM Expr.toAtom = .ok atoms)
    (h : Runs steady functions (.exprs es) σ (.values vs) σ') :
    σ' = σ ∧ atoms.map (·.value? context σ.locals) = vs.map some := by
  induction es generalizing atoms vs with
  | nil =>
    cases hatoms
    cases h
    exact ⟨rfl, rfl⟩
  | cons e es ih =>
    rw [List.mapM_cons, Except.bind_eq_ok] at hatoms
    obtain ⟨atom, hatom, hatoms⟩ := hatoms
    obtain ⟨rest, hrest, hatoms⟩ := Except.bind_eq_ok.mp hatoms
    cases hatoms
    cases h with
    | exprsCons hv hs =>
      obtain ⟨rfl, hvalue⟩ := Expr.value?_toAtom hnames hatom hv
      obtain ⟨rfl, hvalues⟩ := ih hrest hs
      refine ⟨rfl, ?_⟩
      rw [List.map_cons, hvalue, hvalues]
      rfl

/-- An operator that is applied to atoms gives what it gave. -/
theorem Interpreter.Runs.flows_primitive {operands : List Expr}
    (hatoms : operands.mapM Expr.toAtom = .ok atoms)
    (h : Runs steady functions (.expr (.primitive operator operands)) σ (.value v) σ') :
    σ' = σ ∧ Flow.Runs context (.operation (.primitive operator atoms)) σ v σ := by
  cases h with
  | andTrue hl hr =>
    obtain ⟨left, right, hleft, hright, rfl⟩ := Expr.toAtom_pair hatoms
    obtain ⟨rfl, hl⟩ := Expr.value?_toAtom hnames hleft hl
    obtain ⟨rfl, hr⟩ := Expr.value?_toAtom hnames hright hr
    exact ⟨rfl, .andTrue hl hr⟩
  | andFalse hl =>
    obtain ⟨left, right, hleft, hright, rfl⟩ := Expr.toAtom_pair hatoms
    obtain ⟨rfl, hl⟩ := Expr.value?_toAtom hnames hleft hl
    exact ⟨rfl, .andFalse hl⟩
  | orTrue hl =>
    obtain ⟨left, right, hleft, hright, rfl⟩ := Expr.toAtom_pair hatoms
    obtain ⟨rfl, hl⟩ := Expr.value?_toAtom hnames hleft hl
    exact ⟨rfl, .orTrue hl⟩
  | orFalse hl hr =>
    obtain ⟨left, right, hleft, hright, rfl⟩ := Expr.toAtom_pair hatoms
    obtain ⟨rfl, hl⟩ := Expr.value?_toAtom hnames hleft hl
    obtain ⟨rfl, hr⟩ := Expr.value?_toAtom hnames hright hr
    exact ⟨rfl, .orFalse hl hr⟩
  | primitive hstrict hs hvalue =>
    obtain ⟨rfl, hs⟩ := Expr.values?_toAtoms hnames hatoms hs
    exact ⟨rfl, .primitive hstrict hs hvalue⟩

/-! ### Tests -/

/-- Atoms branch to the label of their value. -/
theorem Expr.branchesTo_of_isAtomic (he : e.isAtomic = true)
    (h : Runs steady functions (.expr e) σ (.value (.bool test)) σ') :
    e.BranchesTo context σ test σ := by
  intro function positive negative code hcode result σ'' hgoto
  cases e with
  | var name =>
    rw [Expr.toBranch] at hcode
    cases hcode.of_pure
    obtain ⟨-, hvalue⟩ := Expr.value?_toAtom hnames rfl h
    have htest : Flow.Runs context
        (.operation (.primitive .eq [.var name, .const (.bool true)])) σ (.bool test) σ := by
      have hvalues : [Flow.Atom.var name, .const (.bool true)].map (·.value? context σ.locals) =
          [Value.bool test, .bool true].map some := by
        rw [List.map_cons, hvalue]
        rfl
      refine .primitive rfl hvalues ?_
      cases test <;> rfl
    cases hgoto with
    | goto hlabel hrest => exact .branch htest hlabel hrest
  | const value =>
    cases h with
    | bool value =>
      rw [Expr.toBranch] at hcode
      cases hcode.of_pure
      exact hgoto
  | _ => cases he

/-- A comparison of atoms, as a test. -/
theorem Expr.branchesTo_comparison {lhs : Expr} (hop : operator.isComparison = true)
    (h : Runs steady functions (.expr (.primitive operator [lhs, rhs])) σ (.value (.bool test))
      σ') : (Expr.primitive operator [lhs, rhs]).BranchesTo context σ test σ := by
  intro function positive negative code hcode result σ'' hgoto
  have hbranch : (Expr.primitive operator [lhs, rhs]).toBranch positive negative = (do
      let left ← (liftM lhs.toAtom : Flow.Building Flow.Atom)
      let right ← (liftM rhs.toAtom : Flow.Building Flow.Atom)
      return [.branch operator left right positive negative]) := by
    cases operator <;> first | rfl | cases hop
  rw [hbranch] at hcode
  obtain ⟨left, hleft, hcode⟩ := hcode.lift_bind_inv fun left =>
    (AddsBlocks.lift _).bind fun right => .pure _
  obtain ⟨right, hright, hcode⟩ := hcode.lift_bind_inv fun right => .pure _
  cases hcode.of_pure
  have hatoms : [lhs, rhs].mapM Expr.toAtom = .ok [left, right] := by
    rw [List.mapM_cons, hleft, List.mapM_cons, hright]
    rfl
  obtain ⟨-, htest⟩ := h.flows_primitive hnames hatoms
  cases hgoto with
  | goto hlabel hrest => exact .branch htest hlabel hrest

/-- So do simple tests. -/
theorem Expr.branchesTo_of_isSimpleTest (he : e.isSimpleTest = true)
    (h : Runs steady functions (.expr e) σ (.value (.bool test)) σ') :
    σ' = σ ∧ e.BranchesTo context σ test σ := by
  rw [Expr.isSimpleTest, Bool.and_eq_true] at he
  obtain ⟨htest, hflat⟩ := he
  cases e with
  | var name | const value =>
    exact ⟨h.store_eq_of_isAtomic rfl, Expr.branchesTo_of_isAtomic hnames rfl h⟩
  | primitive operator operands =>
    have hatomic : ∀ e ∈ operands, e.isAtomic = true := List.all_eq_true.mp hflat
    refine ⟨?_, ?_⟩
    · obtain ⟨atoms, hatoms, -⟩ := Expr.exists_mapM_toAtom hflat
      exact (h.flows_primitive hnames hatoms).1
    have hadds := addsBlocks_toFlow.expr
    cases h with
    | @andTrue _ _ _ lhs rhs _ hl hr | @orFalse _ _ _ lhs rhs _ hl hr =>
      cases hl.store_eq_of_isAtomic (hatomic lhs (by simp))
      have hl := Expr.branchesTo_of_isAtomic hnames (hatomic lhs (by simp)) hl
      have hr := Expr.branchesTo_of_isAtomic hnames (hatomic rhs (by simp)) hr
      intro function positive negative code hcode result σ'' hgoto
      rw [Expr.toBranch] at hcode
      obtain ⟨right, hcode, hright⟩ := hr.runs_right (fun _ => hadds _ _ _) hcode hgoto
      exact hl _ _ _ _ hcode _ _ hright
    | @andFalse _ _ lhs rhs hl | @orTrue _ _ lhs rhs hl =>
      have hl := Expr.branchesTo_of_isAtomic hnames (hatomic lhs (by simp)) hl
      intro function positive negative code hcode result σ'' hgoto
      rw [Expr.toBranch] at hcode
      obtain ⟨_, -, hcode⟩ := hcode.bind_inv fun rcode =>
        (AddsBlocks.labelFor rcode).bind fun _ => hadds _ _ _
      obtain ⟨right, -, hcode⟩ := hcode.bind_inv fun _ => hadds _ _ _
      exact hl _ _ _ _ hcode _ _ hgoto
    | primitive hstrict hs hvalue =>
      rw [Expr.isTest, hstrict, Bool.or_false, Bool.or_eq_true, beq_iff_eq] at htest
      rcases htest with hop | rfl
      · obtain ⟨a, b, rfl⟩ := Value.comparison_eq_ok hop hvalue
        have hrun := Runs.primitive hstrict hs hvalue
        cases hs with
        | exprsCons hv hs =>
          cases hs with
          | exprsCons hv' hs =>
            cases hs
            exact Expr.branchesTo_comparison hnames hop hrun
      · cases Value.not_eq_ok hvalue
        cases hs with
        | @exprsCons _ _ _ operand _ _ _ hv hs =>
          cases hs
          exact (Expr.branchesTo_of_isAtomic hnames (hatomic operand (by simp)) hv).not
  | _ => cases htest

end Meaning

/-! ### Statements -/

namespace Flow

/-- What runs after statements that ended in the given way: the code that follows them, or nothing
if they returned. -/
def Resumes (context : Context) (function : Function) (next : List Stmt)
    (completion : Completion) (σ : Store) (result : Value) (σ' : Store) : Prop :=
  match completion with
  | .next => Runs context (.code function next) σ result σ'
  | .returned value => result = value ∧ σ' = σ

/-- Code that is made for statements and what follows them runs like the statements. -/
def Continues (context : Context)
    (build : List Stmt → Building (List Stmt)) (σ : Store) (completion : Completion)
    (σ' : Store) : Prop :=
  ∀ (function : Function) next code, function.Includes (build next) code → ∀ result σ'',
    Resumes context function next completion σ' result σ'' →
    Runs context (.code function code) σ result σ''

/-- The function has a loop: under `test` it tests the condition, and goes on to the body, which
comes back to `test`, or to `join`. -/
structure Function.HasLoop (function : Function) (test join : Name) (condition : Expr)
    (body : List TupleLang.Stmt) : Prop where
  intro ::
  exists_blocks : ∃ label testCode bodyCode,
    function.Includes (Stmt.toFlowBlock [.goto test] body) bodyCode ∧
    function.code? label = some bodyCode ∧
    function.Includes (condition.toBranch label join) testCode ∧
    function.code? test = some testCode

/-- The control-flow function was made of the function. -/
structure Function.IsFlowOf (flow : Function) (function : TupleLang.Function) : Prop where
  parameters : flow.parameters = function.parameters.map Prod.fst
  normal : Stmt.areNormal false function.body = true
  start : flow.Includes (Stmt.toFlowBlock [.ret (.const (.int 0))] function.body) flow.start

/-- All functions have their control-flow functions. -/
structure Context.Covers (context : Context)
    (functions : Std.ExtTreeMap Name TupleLang.Function) : Prop where
  names : ∀ name, context.functionNames.contains name = functions.contains name
  functions : ∀ {name : Name} {function : TupleLang.Function}, functions[name]? = some function →
    ∃ flow : Function, context.functions[name]? = some flow ∧ flow.IsFlowOf function

end Flow

/-- The code of a task in normal form does what the task did. -/
def Interpreter.Task.FlowsTo (context : Flow.Context) (σ : Store)
    (outcome : Outcome) (σ' : Store) : Task → Prop
  | .expr e => ∀ v, outcome = .value v →
    (e.isSimple = true → ∀ operation, e.toOperation = .ok operation →
      Flow.Runs context (.operation operation) σ v σ') ∧
    ∀ ss value test, e = .begin ss value → v = .bool test → Stmt.areNormal false ss = true →
      value.isSimpleTest = true → e.BranchesTo context σ test σ'
  | .exprs _ => True
  | .stmt st => ∀ completion, outcome = .ended completion → st.isNormal false = true →
    Flow.Continues context (Stmt.toFlow · st) σ completion σ'
  | .block ss => ∀ completion, outcome = .ended completion → Stmt.areNormal false ss = true →
    Flow.Continues context (Stmt.toFlowBlock · ss) σ completion σ'
  | .turn condition body => ∀ completion, outcome = .ended completion →
    (Stmt.whileDo condition body).isNormal false = true →
    ∀ (function : Flow.Function) test join, function.HasLoop test join condition body →
    ∀ result σ'', Flow.Resumes context function [.goto join] completion σ' result σ'' →
      Flow.Runs context (.code function [.goto test]) σ result σ''

section Statements

variable {steady test : Bool} {functions : Std.ExtTreeMap Name Function} {context : Flow.Context}
  {σ σ' : Store} {condition : Expr} {function : Flow.Function}
  {positive negative : List TupleLang.Stmt} {next code : List Flow.Stmt}

/-- A statement that becomes one statement of the code, with a part that has to be found. -/
theorem Flow.Continues.single {α : Type} {part : Except CompileError α} {wrap : α → Flow.Stmt}
    (h : ∀ a, part = .ok a → ∀ (function : Flow.Function) rest result σ'',
      Flow.Runs context (.code function rest) σ' result σ'' →
      Flow.Runs context (.code function (wrap a :: rest)) σ result σ'') :
    Flow.Continues context (fun next => do
      let a ← (liftM part : Flow.Building α)
      return wrap a :: next) σ .next σ' := by
  intro function next code hcode result σ'' hnext
  obtain ⟨a, ha, hcode⟩ := hcode.lift_bind_inv fun _ => .pure _
  cases hcode.of_pure
  exact h a ha function next result σ'' hnext

/-- The two branches of a conditional, and the test before them. -/
theorem Flow.Function.Includes.ifElse_inv
    (h : function.Includes (Stmt.toFlow next (.ifElse condition positive negative)) code) :
    ∃ join positive' negative' positiveLabel negativeLabel,
      function.Includes (Flow.labelFor next) join ∧
      function.Includes (Stmt.toFlowBlock [.goto join] positive) positive' ∧
      function.code? positiveLabel = some positive' ∧
      function.Includes (Stmt.toFlowBlock [.goto join] negative) negative' ∧
      function.code? negativeLabel = some negative' ∧
      function.Includes (condition.toBranch positiveLabel negativeLabel) code := by
  have hbranch (positive negative : Name) := addsBlocks_toFlow.expr condition positive negative
  have hblock (ss : List TupleLang.Stmt) := Stmt.addsBlocks_toFlowBlock (addsBlocks_toFlow.stmts ss)
  rw [Stmt.toFlow] at h
  obtain ⟨join, hjoin, h⟩ := h.bind_inv fun _ => (hblock _ _).bind fun _ =>
    (AddsBlocks.newBlock _).bind fun _ => (hblock _ _).bind fun _ =>
    (AddsBlocks.newBlock _).bind fun _ => hbranch _ _
  obtain ⟨positive', hpositive, h⟩ := h.bind_inv fun _ => (AddsBlocks.newBlock _).bind fun _ =>
    (hblock _ _).bind fun _ => (AddsBlocks.newBlock _).bind fun _ => hbranch _ _
  obtain ⟨positiveLabel, hpositiveLabel, h⟩ := h.bind_inv fun _ => (hblock _ _).bind fun _ =>
    (AddsBlocks.newBlock _).bind fun _ => hbranch _ _
  obtain ⟨negative', hnegative, h⟩ := h.bind_inv fun _ => (AddsBlocks.newBlock _).bind fun _ =>
    hbranch _ _
  obtain ⟨negativeLabel, hnegativeLabel, h⟩ := h.bind_inv fun _ => hbranch _ _
  exact ⟨join, positive', negative', positiveLabel, negativeLabel, hjoin, hpositive,
    hpositiveLabel.of_newBlock, hnegative, hnegativeLabel.of_newBlock, h⟩

/-- The code of a loop is a jump to its test. -/
theorem Flow.Function.Includes.whileDo_inv {body : List TupleLang.Stmt}
    (h : function.Includes (Stmt.toFlow next (.whileDo condition body)) code) :
    ∃ join test, function.Includes (Flow.labelFor next) join ∧ code = [.goto test] ∧
      function.HasLoop test join condition body := by
  have hbranch (positive negative : Name) := addsBlocks_toFlow.expr condition positive negative
  have hblock (ss : List TupleLang.Stmt) := Stmt.addsBlocks_toFlowBlock (addsBlocks_toFlow.stmts ss)
  obtain ⟨blocks, s, blocks', s', h, hresolves⟩ := h
  rw [Stmt.toFlow] at h
  obtain ⟨join, blocks₁, s₁, hjoin, h⟩ := Flow.bind_eq_ok.mp h
  obtain ⟨test, blocks₂, s₂, htest, h⟩ := Flow.bind_eq_ok.mp h
  cases htest
  obtain ⟨bodyCode, blocks₃, s₃, hbody, h⟩ := Flow.bind_eq_ok.mp h
  obtain ⟨label, blocks₄, s₄, hlabel, h⟩ := Flow.bind_eq_ok.mp h
  obtain ⟨testCode, blocks₅, s₅, htest, h⟩ := Flow.bind_eq_ok.mp h
  cases h
  have hresolves₅ := fun block hblock => hresolves block (List.mem_cons_of_mem _ hblock)
  have hresolves₄ := Flow.Function.Resolves.before hresolves₅ (hbranch _ _ _ _ _ _ _ htest)
  have hresolves₃ := hresolves₄.before (AddsBlocks.newBlock _ _ _ _ _ _ hlabel)
  have hresolves₂ := hresolves₃.before (hblock _ _ _ _ _ _ _ hbody)
  refine ⟨join, _, ⟨_, _, _, _, hjoin, hresolves₂⟩, rfl, label, testCode, bodyCode,
    ⟨_, _, _, _, hbody, hresolves₃⟩, ?_, ⟨_, _, _, _, htest, hresolves₅⟩,
    hresolves _ List.mem_cons_self⟩
  exact Flow.Function.Includes.of_newBlock ⟨_, _, _, _, hlabel, hresolves₄⟩

/-- A conditional goes on with the branch that the test chooses. -/
theorem Flow.Continues.ifElse {completion : Completion} {σ₁ : Store}
    (hc : condition.BranchesTo context σ test σ₁)
    (hs : Flow.Continues context (Stmt.toFlowBlock · (if test then positive else negative))
      σ₁ completion σ') :
    Flow.Continues context (Stmt.toFlow · (.ifElse condition positive negative)) σ completion
      σ' := by
  intro function next code hcode result σ'' hnext
  obtain ⟨join, positive', negative', positiveLabel, negativeLabel, hjoin, hpositive,
    hpositiveLabel, hnegative, hnegativeLabel, hcode⟩ := hcode.ifElse_inv
  have hresumes : Flow.Resumes context function [.goto join] completion σ' result σ'' := by
    cases completion with
    | next =>
      obtain ⟨code', hlabel, hrun⟩ := hjoin.runs_labelFor hnext
      exact .goto hlabel hrun
    | returned value => exact hnext
  refine hc _ _ _ _ hcode _ _ ?_
  cases test with
  | true => exact .goto hpositiveLabel (hs _ _ _ hpositive _ _ hresumes)
  | false => exact .goto hnegativeLabel (hs _ _ _ hnegative _ _ hresumes)

/-- The test of a loop in normal form branches as the condition does. -/
theorem Interpreter.Task.FlowsTo.branchesTo {body : List Stmt}
    (hnames : ∀ name, context.functionNames.contains name = functions.contains name)
    (hnormal : (Stmt.whileDo condition body).isNormal false = true)
    (hc : Runs steady functions (.expr condition) σ (.value (.bool test)) σ')
    (h : (Task.expr condition).FlowsTo context σ (.value (.bool test)) σ') :
    condition.BranchesTo context σ test σ' ∧ Stmt.areNormal false body = true := by
  cases condition with
  | «begin» statements value =>
    simp only [Stmt.isNormal, Bool.and_eq_true] at hnormal
    obtain ⟨⟨⟨-, hstatements⟩, htest⟩, hbody⟩ := hnormal
    exact ⟨(h _ rfl).2 statements value test rfl rfl hstatements htest, hbody⟩
  | _ =>
    simp only [Stmt.isNormal, Bool.and_eq_true] at hnormal
    obtain ⟨rfl, hbranches⟩ := Expr.branchesTo_of_isSimpleTest hnames hnormal.1 hc
    exact ⟨hbranches, hnormal.2⟩

end Statements

/-! ### Runs -/

variable {steady : Bool} {functions : Std.ExtTreeMap Name Function} {program : Program}
  {environment : TypeEnvironment} {flow : Flow.Program} {s s' : NameSupply} {σ σ' : Store}

/-- Operations on atoms give the same value. -/
theorem flowsTo_primitive {context : Flow.Context} {operator : Operator} {operands : List Expr}
    {v : Value} (hnames : ∀ name, context.functionNames.contains name = functions.contains name)
    (h : Runs steady functions (.expr (.primitive operator operands)) σ (.value v) σ') :
    (Task.expr (.primitive operator operands)).FlowsTo context σ (.value v) σ' := by
  rintro v ⟨⟩
  refine ⟨?_, nofun⟩
  rintro - operation hoperation
  rw [Expr.toOperation, Except.bind_eq_ok] at hoperation
  obtain ⟨atoms, hatoms, hoperation⟩ := hoperation
  cases hoperation
  obtain ⟨rfl, hrun⟩ := h.flows_primitive hnames hatoms
  exact hrun

/-- The code that a task is turned into does what the task did. -/
theorem Interpreter.Runs.flowsTo {context : Flow.Context} {task : Task} {outcome : Outcome}
    (hcontext : context.Covers functions) (h : Runs true functions task σ outcome σ') :
    task.FlowsTo context σ outcome σ' := by
  have hnames := hcontext.names
  -- on the run; operands are atoms, so operators need no induction hypothesis
  induction h with
  | @«local» σ name value h =>
    rintro v ⟨⟩
    refine ⟨?_, fun _ _ _ he => by cases he⟩
    rintro - operation ⟨⟩
    exact .atom (by rw [Flow.Atom.value?, h])
  | @function σ name h hname =>
    rintro v ⟨⟩
    refine ⟨?_, fun _ _ _ he => by cases he⟩
    rintro - operation ⟨⟩
    refine .atom ?_
    rw [Flow.Atom.value?, h]
    exact if_pos ((hnames name).trans hname)
  | int value | bool value =>
    rintro v ⟨⟩
    refine ⟨?_, fun _ _ _ he => by cases he⟩
    rintro - operation ⟨⟩
    exact .atom rfl
  | andTrue hl hr => exact flowsTo_primitive hnames (.andTrue hl hr)
  | andFalse hl => exact flowsTo_primitive hnames (.andFalse hl)
  | orTrue hl => exact flowsTo_primitive hnames (.orTrue hl)
  | orFalse hl hr => exact flowsTo_primitive hnames (.orFalse hl hr)
  | primitive hstrict hs hvalue => exact flowsTo_primitive hnames (.primitive hstrict hs hvalue)
  | @call _ _ _ _ _ _ _ _ _ completion ht hs hfunction _ _ _ ih =>
    rintro v ⟨⟩
    refine ⟨?_, fun _ _ _ he => by cases he⟩
    rintro - operation hoperation
    rw [Expr.toOperation, Except.bind_eq_ok] at hoperation
    obtain ⟨target, htarget, hoperation⟩ := hoperation
    obtain ⟨atoms, hatoms, hoperation⟩ := Except.bind_eq_ok.mp hoperation
    cases hoperation
    obtain ⟨rfl, ht⟩ := Expr.value?_toAtom hnames htarget ht
    obtain ⟨rfl, hs⟩ := Expr.values?_toAtoms hnames hatoms hs
    obtain ⟨flow, hflow, hmade⟩ := hcontext.functions hfunction
    refine .call ht hs hflow ?_
    rw [hmade.parameters]
    refine ih _ rfl hmade.normal flow _ _ hmade.start _ _ ?_
    cases completion with
    | next => exact .ret rfl
    | returned value => exact ⟨rfl, rfl⟩
  | tuple _ _ =>
    rintro v ⟨⟩
    refine ⟨?_, fun _ _ _ he => by cases he⟩
    rintro - operation ⟨⟩
  | beginReturned hsteady => cases hsteady
  | @beginNext _ _ _ statements value result _ hv ihs _ =>
    rintro v ⟨⟩
    refine ⟨fun hsimple => by simp [Expr.isSimple, Expr.isBegin] at hsimple, ?_⟩
    rintro ss value test ⟨⟩ rfl hss hvalue function positive negative code hcode result σ'' hgoto
    obtain ⟨rfl, hbranches⟩ := Expr.branchesTo_of_isSimpleTest hnames hvalue hv
    rw [Expr.toBranch] at hcode
    obtain ⟨testCode, htest, hcode⟩ := hcode.bind_inv fun _ =>
      Stmt.addsBlocks_toFlowBlock (addsBlocks_toFlow.stmts _) _
    exact ihs _ rfl hss function testCode code hcode result σ'' (hbranches _ _ _ _ htest _ _ hgoto)
  | global name =>
    rintro v ⟨⟩
    refine ⟨?_, fun _ _ _ he => by cases he⟩
    rintro - operation ⟨⟩
    exact .global name
  | allocate bytes fields =>
    rintro v ⟨⟩
    refine ⟨?_, fun _ _ _ he => by cases he⟩
    rintro - operation ⟨⟩
    exact .allocate bytes fields
  | exprsNil => trivial
  | exprsCons _ _ _ _ => trivial
  | assign _ ih =>
    rintro completion ⟨⟩ hnormal
    rw [Stmt.isNormal, Bool.and_eq_true] at hnormal
    refine .single fun operation hoperation function rest result σ'' hrest => ?_
    exact .assign ((ih _ rfl).1 hnormal.1 operation hoperation) hrest
  | print hv hword _ =>
    rintro completion ⟨⟩ -
    refine .single fun atom hatom function rest result σ'' hrest => ?_
    obtain ⟨rfl, hvalue⟩ := Expr.value?_toAtom hnames hatom hv
    exact .print hvalue hword hrest
  | ifTrue hc _ _ ih =>
    rintro completion ⟨⟩ hnormal
    rw [Stmt.isNormal, Bool.and_eq_true, Bool.and_eq_true] at hnormal
    obtain ⟨rfl, hbranches⟩ := Expr.branchesTo_of_isSimpleTest hnames hnormal.1.1 hc
    exact .ifElse hbranches (ih _ rfl hnormal.1.2)
  | ifFalse hc _ _ ih =>
    rintro completion ⟨⟩ hnormal
    rw [Stmt.isNormal, Bool.and_eq_true, Bool.and_eq_true] at hnormal
    obtain ⟨rfl, hbranches⟩ := Expr.branchesTo_of_isSimpleTest hnames hnormal.1.1 hc
    exact .ifElse hbranches (ih _ rfl hnormal.2)
  | @whileDo _ σ₁ condition body completion _ ih =>
    rintro completion ⟨⟩ hnormal function next code hcode result σ'' hnext
    obtain ⟨join, test, hjoin, rfl, hloop⟩ := hcode.whileDo_inv
    refine ih _ rfl hnormal function test join hloop result σ'' ?_
    cases completion with
    | next =>
      obtain ⟨code', hlabel, hrun⟩ := hjoin.runs_labelFor hnext
      exact .goto hlabel hrun
    | returned value => exact hnext
  | @ret σ σ₁ value result hv ih =>
    rintro completion ⟨⟩ hnormal function next code hcode result σ'' ⟨rfl, rfl⟩
    have hsimple := Stmt.isSimple_of_isNormal_ret hnormal
    cases value with
    | call target arguments =>
      beta_reduce at hcode
      rw [Stmt.toFlow] at hcode
      obtain ⟨target', htarget, hcode⟩ := hcode.lift_bind_inv fun _ =>
        (AddsBlocks.mapM_lift _ _).bind fun _ => .pure _
      obtain ⟨atoms, hatoms, hcode⟩ := hcode.bind_inv fun _ => .pure _
      cases hcode.of_pure
      refine .tailCall ((ih _ rfl).1 hsimple (.call target' atoms) ?_)
      rw [Expr.toOperation, htarget, hatoms.of_mapM_lift]
      rfl
    | _ =>
      obtain ⟨atom, hatom, hcode⟩ := hcode.lift_bind_inv fun _ => .pure _
      cases hcode.of_pure
      obtain ⟨rfl, hvalue⟩ := Expr.value?_toAtom hnames hatom hv
      exact .ret hvalue
  | define name parameters output body =>
    rintro completion ⟨⟩ - function next code hcode
    cases hcode.of_lift
  | collect bytes =>
    rintro completion ⟨⟩ - function next code hcode result σ'' hnext
    cases hcode.of_pure
    exact .collect hnext
  | setField hv htuple hindex _ =>
    rintro completion ⟨⟩ -
    refine .single fun atom hatom function rest result σ'' hrest => ?_
    obtain ⟨rfl, hvalue⟩ := Expr.value?_toAtom hnames hatom hv
    exact .setField hvalue htuple hindex hrest
  | blockNil =>
    rintro completion ⟨⟩ - function next code hcode result σ'' hnext
    cases hcode.of_pure
    exact hnext
  | blockReturned _ ih =>
    rintro completion ⟨⟩ hnormal function next code hcode result σ'' hnext
    rw [Stmt.areNormal, Bool.and_eq_true] at hnormal
    obtain ⟨rest, hrest, hcode⟩ := hcode.bind_inv fun _ => addsBlocks_toFlow.stmt _ _
    exact ih _ rfl hnormal.1 function rest code hcode result σ'' hnext
  | blockNext _ _ ihs ihr =>
    rintro completion ⟨⟩ hnormal function next code hcode result σ'' hnext
    rw [Stmt.areNormal, Bool.and_eq_true] at hnormal
    obtain ⟨rest, hrest, hcode⟩ := hcode.bind_inv fun _ => addsBlocks_toFlow.stmt _ _
    exact ihs _ rfl hnormal.1 function rest code hcode result σ''
      (ihr _ rfl hnormal.2 function next rest hrest result σ'' hnext)
  | turnStop hc ihc =>
    rintro completion ⟨⟩ hnormal function test join hloop result σ'' hnext
    obtain ⟨hbranches, hbody⟩ := ihc.branchesTo hnames hnormal hc
    obtain ⟨label, testCode, bodyCode, -, -, htest, htestLabel⟩ := hloop
    exact .goto htestLabel (hbranches _ _ _ _ htest _ _ hnext)
  | turnReturned hc _ ihc ihs =>
    rintro completion ⟨⟩ hnormal function test join hloop result σ'' hnext
    obtain ⟨hbranches, hbody⟩ := ihc.branchesTo hnames hnormal hc
    obtain ⟨label, testCode, bodyCode, hbodyCode, hlabel, htest, htestLabel⟩ := hloop
    refine .goto htestLabel (hbranches _ _ _ _ htest _ _ (.goto hlabel ?_))
    exact ihs _ rfl hbody function _ _ hbodyCode result σ'' hnext
  | turnNext hc _ _ ihc ihs iht =>
    rintro completion ⟨⟩ hnormal function test join hloop result σ'' hnext
    have hagain := iht _ rfl hnormal function test join hloop result σ'' hnext
    obtain ⟨hbranches, hbody⟩ := ihc.branchesTo hnames hnormal hc
    obtain ⟨label, testCode, bodyCode, hbodyCode, hlabel, htest, htestLabel⟩ := hloop
    refine .goto htestLabel (hbranches _ _ _ _ htest _ _ (.goto hlabel ?_))
    exact ihs _ rfl hbody function _ _ hbodyCode result σ'' hagain

/-! ### Programs -/

/-- The label of a function's first block is no label from a supply. -/
theorem Name.startLabel_ne_nameAt (function : Name) (base : String) (number : Nat) :
    function.startLabel ≠ NameSupply.nameAt base number := by
  intro h
  have hlist := congrArg String.toList h
  have hstart : function.startLabel.toList =
      function.toList ++ Name.separator :: ['s', 't', 'a', 'r', 't'] := by
    simp [Name.startLabel, Name.separator]
  rw [hstart, NameSupply.toList_nameAt] at hlist
  obtain ⟨-, hdigits⟩ := NameSupply.append_cons_inj (by decide)
    (NameSupply.separator_notMem_toDigits number) hlist
  have hs : 's' ∈ Nat.toDigits 10 number := hdigits ▸ List.mem_cons_self
  exact absurd (Nat.isDigit_of_mem_toDigits (by decide) (by decide) hs) (by decide)

namespace Flow

/-- Of blocks with different labels each is found under its own. -/
theorem find?_label {blocks : List Block} (hnodup : (blocks.map Block.label).Nodup) {block : Block}
    (hblock : block ∈ blocks) : blocks.find? (·.label == block.label) = some block := by
  induction blocks with
  | nil => cases hblock
  | cons first rest ih =>
    rw [List.map_cons, List.nodup_cons] at hnodup
    rcases List.mem_cons.mp hblock with rfl | hblock
    · simp
    · have hne : first.label ≠ block.label := fun he =>
        hnodup.1 (he ▸ List.mem_map_of_mem hblock)
      rw [List.find?_cons_of_neg (by simpa using hne)]
      exact ih hnodup.2 hblock

variable {environment : TypeEnvironment} {name : Name} {parameters : List Name}
  {body : List TupleLang.Stmt} {s s' : NameSupply} {function : Function}

/-- What a control-flow function is made of. -/
theorem functionOf_eq_ok (h : functionOf environment name parameters body s = .ok (function, s')) :
    ∃ start blocks,
      Stmt.toFlowBlock [.ret (.const (.int 0))] body [] s = .ok ((start, blocks), s') ∧
      function = {
        name
        parameters
        blocks := ⟨name.startLabel, start⟩ :: blocks
        variableTypes := (environment.variablesOf? name).getD ∅ } := by
  rw [functionOf, Stateful.bind_pure_eq_ok] at h
  obtain ⟨⟨start, blocks⟩, hblocks, rfl⟩ := h
  exact ⟨start, blocks, hblocks, rfl⟩

/-- A control-flow function has the blocks that were made for it. -/
theorem includes_functionOf
    (h : functionOf environment name parameters body s = .ok (function, s')) :
    function.Includes (Stmt.toFlowBlock [.ret (.const (.int 0))] body) function.start := by
  obtain ⟨start, blocks, hblocks, rfl⟩ := functionOf_eq_ok h
  refine ⟨[], s, blocks, s', hblocks, fun block hblock => ?_⟩
  have hadds := Stmt.addsBlocks_toFlowBlock (addsBlocks_toFlow.stmts body) _ _ _ _ _ _ hblocks
  obtain ⟨-, added, hadded, hnodup, hlabels⟩ := hadds
  rw [List.append_nil] at hadded
  subst hadded
  obtain ⟨base, -, number, hlabel, -, -⟩ := hlabels block hblock
  have hne : name.startLabel ≠ block.label := hlabel ▸ name.startLabel_ne_nameAt base number
  rw [Function.code?, List.find?_cons_of_neg (by simpa using hne), find?_label hnodup hblock]
  rfl

end Flow

/-- What a control-flow program is made of. -/
theorem Program.toFlow_eq_ok (h : program.toFlow environment s = .ok (flow, s')) :
    ∃ functions s₁ entry,
      program.functions.mapM (fun f =>
        Flow.functionOf environment f.name (f.parameters.map Prod.fst) f.body) s =
          .ok (functions, s₁) ∧
      Flow.functionOf environment Name.entryPoint []
        (program.statements.filter (·.function?.isNone)) s₁ = .ok (entry, s') ∧
      flow = ⟨functions ++ [entry], .ofList environment.functions.keys⟩ := by
  rw [Program.toFlow, Stateful.bind₂_eq_ok] at h
  obtain ⟨functions, s₁, entry, hfunctions, hentry, rfl⟩ := h
  exact ⟨functions, s₁, entry, hfunctions, hentry, rfl⟩

/-- What holds of the functions as they are made holds of all functions of a control-flow
program. -/
theorem Program.forall_mem_toFlow {p : Flow.Function → Prop}
    (hfunctions : ∀ f ∈ program.functions, ∀ s function s',
      Flow.functionOf environment f.name (f.parameters.map Prod.fst) f.body s =
        .ok (function, s') → p function)
    (hentry : ∀ s function s', Flow.functionOf environment Name.entryPoint []
      (program.statements.filter (·.function?.isNone)) s = .ok (function, s') → p function)
    (h : program.toFlow environment s = .ok (flow, s')) :
    ∀ function ∈ flow.functions, p function := by
  obtain ⟨functions, s₁, entry, hmade, hlast, rfl⟩ := toFlow_eq_ok h
  exact List.forall_mem_append.mpr ⟨Stateful.forall_mem_of_mapM hfunctions hmade,
    List.forall_mem_singleton.mpr (hentry _ _ _ hlast)⟩

/-- Definitions do nothing when they are run. -/
theorem Interpreter.Runs.filter {ss : List Stmt} {completion : Completion}
    (h : Runs steady functions (.block ss) σ (.ended completion) σ') :
    Runs steady functions (.block (ss.filter (·.function?.isNone))) σ (.ended completion) σ' := by
  generalize htask : Task.block ss = task at h
  generalize houtcome : Outcome.ended completion = outcome at h
  induction h generalizing ss with
  | blockNil =>
    cases htask
    cases houtcome
    exact .blockNil
  | @blockReturned _ _ statement _ _ hs _ =>
    cases htask
    cases houtcome
    cases hfunction : statement.function? with
    | none =>
      rw [List.filter_cons_of_pos (by rw [hfunction]; rfl)]
      exact .blockReturned hs
    | some f => cases hs <;> cases hfunction
  | @blockNext _ _ _ statement _ _ hs hr _ ih =>
    cases htask
    cases houtcome
    have hrest := ih rfl rfl
    cases hfunction : statement.function? with
    | none =>
      rw [List.filter_cons_of_pos (by rw [hfunction]; rfl)]
      exact .blockNext hs hrest
    | some f =>
      rw [List.filter_cons_of_neg (by rw [hfunction]; exact nofun)]
      cases hs <;> first | exact hrest | cases hfunction
  | _ => cases htask

/-- The control-flow program of a program in normal form covers its functions. -/
theorem Program.covers_toFlow {functions : List Flow.Function} {entry : Flow.Function}
    (hchecks : Typing.ProgramChecks true program environment)
    (hnormal : program.isNormal false = true)
    (hfunctions : program.functions.mapM (fun function => Flow.functionOf environment function.name
      (function.parameters.map Prod.fst) function.body) s = .ok (functions, s'))
    (hentry : entry.name = Name.entryPoint) :
    Flow.Context.Covers
      (Flow.Program.context ⟨functions ++ [entry], .ofList environment.functions.keys⟩)
      (functionTable program) := by
  have hnames := hchecks.tablesMatch.contains
  refine ⟨fun name => ?_, fun {name f} hf => ?_⟩
  · rw [← hnames name]
    change (Std.ExtTreeSet.ofList environment.functions.keys).contains name = _
    rw [Std.ExtTreeSet.contains_ofList, Std.ExtTreeMap.contains_keys]
  · have hmade := (List.forall₂_and_left _ _).mpr
      ⟨fun f hf => program.areNormal_body hnormal hf, Stateful.forall₂_of_mapM hfunctions⟩
    have hflows : List.Forall₂
        (fun f (flow : Flow.Function) => flow.name = f.name ∧ flow.IsFlowOf f)
        program.functions functions := by
      refine hmade.imp fun f flow hflow => ?_
      obtain ⟨hbody, s, s', hflow⟩ := hflow
      have hincludes := Flow.includes_functionOf hflow
      obtain ⟨start, blocks, -, rfl⟩ := Flow.functionOf_eq_ok hflow
      exact ⟨rfl, rfl, hbody, hincludes⟩
    have htables : TablesMatch
        (fun f (flow : Flow.Function) => flow.name = f.name ∧ flow.IsFlowOf f)
        (functionTable program) (functions.foldl (fun table f => table.insert f.name f) ∅) :=
      tablesMatch_foldl (fun _ _ hflow => hflow.1) hflows fun _ => .none
    obtain ⟨flow, hflow, -, hmade⟩ := htables.find hf
    refine ⟨flow, ?_, hmade⟩
    have hcontains : environment.functions.contains name = true := by
      rw [hnames name, Std.ExtTreeMap.contains_eq_isSome_getElem?, hf]
      rfl
    have hne : name ≠ Name.entryPoint := by
      rintro rfl
      exact absurd (hchecks.mayBind_of_contains hcontains) (by decide)
    change ((functions ++ [entry]).foldl _ ∅)[name]? = some flow
    rw [List.foldl_append, List.foldl_cons, List.foldl_nil, hentry,
      Std.ExtTreeMap.getElem?_insert, if_neg (by simpa using hne.symm)]
    exact hflow

/-- The control-flow program of a program in normal form prints what the program prints. -/
theorem Program.Prints.toFlow {output : List Word}
    (hchecks : Typing.ProgramChecks true program environment)
    (hnormal : program.isNormal false = true)
    (hflow : program.toFlow environment s = .ok (flow, s')) (h : program.Prints true output) :
    flow.Prints output := by
  obtain ⟨functions, s₁, entry, hfunctions, hentry, rfl⟩ := Program.toFlow_eq_ok hflow
  have hincludes := Flow.includes_functionOf hentry
  have hname : entry.name = Name.entryPoint := by
    obtain ⟨start, blocks, -, rfl⟩ := Flow.functionOf_eq_ok hentry
    rfl
  have hcovers := program.covers_toFlow hchecks hnormal hfunctions hname
  have hmain : Stmt.areNormal false (program.statements.filter (·.function?.isNone)) = true :=
    Stmt.areNormal_iff.mpr fun st hst =>
      Stmt.areNormal_iff.mp hnormal st (List.mem_of_mem_filter hst)
  obtain ⟨completion, σ, hrun, houtput⟩ := h
  refine ⟨entry, completion.result, σ, ?_, ?_, houtput⟩
  · change ((functions ++ [entry]).foldl _ ∅)[Name.entryPoint]? = some entry
    rw [List.foldl_append, List.foldl_cons, List.foldl_nil, hname,
      Std.ExtTreeMap.getElem?_insert_self]
  · refine hrun.filter.flowsTo hcovers completion rfl hmain entry _ _ hincludes _ _ ?_
    cases completion with
    | next => exact .ret rfl
    | returned value => exact ⟨rfl, rfl⟩

end TupleLang
