import TupleLang.Proofs.FlatInvariants
import TupleLang.Proofs.Running

/-!
# Flattening keeps what a program prints

A run of a program is followed by a run of its flat form.  The flat form keeps the values of the
expressions in variables of its own, the temporaries, so the stores of the two runs agree only up
to generated names; that is enough as long as the program itself uses no such name.

What has to be shown of one expression is `Flattened.Gives`: its statements run to their end, change
only temporaries that were taken while it was flattened, and then its value is the one that the
expression had.  Later expressions take later temporaries, so an atom keeps its value while their
statements run (`Runs.keep_atom`).  A call in between may print and change tuples, but it has
variables of its own.

`Task.FlattensSoundly` says the same of every kind of task, and `Runs.flattensSoundly` proves it by
induction on the run.  The main statement is `Program.exists_interpret_flatten`.
-/

namespace TupleLang

open Interpreter Stateful

/-! ## Stores that agree up to generated names -/

/-- The name is the temporary with one of the numbers above `lo`, up to `hi`. -/
def IsTemporary (lo hi : Nat) (name : Name) : Prop :=
  ∃ number, lo < number ∧ number ≤ hi ∧ name = NameSupply.nameAt "tmp" number

variable {lo hi : Nat} {name : Name} {s s' : NameSupply}

theorem IsTemporary.mono {lo' hi' : Nat} (h : IsTemporary lo hi name) (hlo : lo' ≤ lo)
    (hhi : hi ≤ hi') : IsTemporary lo' hi' name := by
  obtain ⟨number, hl, hh, rfl⟩ := h
  exact ⟨number, by omega, by omega, rfl⟩

/-- Temporaries are generated. -/
theorem IsTemporary.isGenerated (h : IsTemporary lo hi name) : name.isGenerated = true := by
  obtain ⟨number, -, -, rfl⟩ := h
  exact NameSupply.isGenerated_nameAt _ _

/-- Temporaries of two ranges, one after the other, are different. -/
theorem IsTemporary.not_later {mid : Nat} (h : IsTemporary lo mid name) :
    ¬IsTemporary mid hi name := by
  obtain ⟨number, -, hh, rfl⟩ := h
  rintro ⟨number', hl', -, he⟩
  have := (NameSupply.nameAt_inj.mp he).2
  omega

/-- The next name is a temporary. -/
theorem isTemporary_nextName (s : NameSupply) :
    IsTemporary s.issued (s.issued + 1) (Flattened.nextName s) :=
  ⟨s.issued + 1, by omega, by omega, rfl⟩

/-- Whether the name is a generated one. -/
def Name.Generated (name : Name) : Prop :=
  name.isGenerated = true

namespace Flattened

/-- From the store `τ` the statements of a flattened expression run to their end and change only
temporaries of a range, and the value after that is `v`, with the given heap and output. -/
def Gives (steady : Bool) (functions : Std.ExtTreeMap Name Function) (lo hi : Nat)
    (flattened : Flattened) (τ : Store) (v : Value) (heap : Heap) (output : Array Word) : Prop :=
  ∃ τ₁ : Store, Runs steady functions (.block flattened.bindings) τ (.ended .next) τ₁ ∧
    τ.ChangesOnly (IsTemporary lo hi) τ₁ ∧
    Runs steady functions (.expr flattened.value) τ₁ (.value v) { τ₁ with heap, output }

variable {steady : Bool} {functions : Std.ExtTreeMap Name Function} {lo hi : Nat}
  {flattened : Flattened} {τ : Store} {v : Value} {heap : Heap} {output : Array Word}

/-- An expression that needs no statements gives its value. -/
theorem Gives.leaf {value : Expr} (lo : Nat)
    (h : Runs steady functions (.expr value) τ (.value v) { τ with heap, output }) :
    Gives steady functions lo lo ⟨[], value⟩ τ v heap output :=
  ⟨τ, .blockNil, fun _ _ => rfl, h⟩

/-- Binding the value to the next name keeps it. -/
theorem Gives.bound {s : NameSupply}
    (h : flattened.Gives steady functions lo s.issued τ v heap output) (hlo : lo ≤ s.issued) :
    (flattened.bound s).Gives steady functions lo (s.issued + 1) τ v heap output := by
  obtain ⟨τ₁, hrun, hchanges, hvalue⟩ := h
  refine ⟨_, hrun.append (.single (.assign hvalue)), ?_, .local ?_⟩
  · refine Store.ChangesOnly.trans (q := IsTemporary lo (s.issued + 1)) hchanges ?_
      (fun name hn => hn.mono (Nat.le_refl _) (Nat.le_succ _)) (fun name hn => hn)
    have hnext := (isTemporary_nextName s).mono hlo (Nat.le_refl _)
    exact Store.changesOnly_insert hnext { τ₁ with heap, output } v
  · simp

/-- Settling an expression keeps its value. -/
theorem Gives.settle {s s' : NameSupply} {atomic : Bool} {settled : Flattened}
    (h : flattened.Gives steady functions lo s.issued τ v heap output) (hlo : lo ≤ s.issued)
    (hsettle : flattened.settle atomic s = .ok (settled, s')) :
    settled.Gives steady functions lo s'.issued τ v heap output := by
  rcases settle_eq_ok hsettle with ⟨rfl, rfl, -⟩ | ⟨rfl, rfl⟩
  · exact h
  · exact h.bound hlo

/-- Making a test of an expression keeps its value. -/
theorem Gives.asTest {s s' : NameSupply} {test : Flattened}
    (h : flattened.Gives steady functions lo s.issued τ v heap output) (hlo : lo ≤ s.issued)
    (htest : flattened.asTest s = .ok (test, s')) :
    test.Gives steady functions lo s'.issued τ v heap output := by
  rcases asTest_eq_ok htest with ⟨rfl, rfl, -⟩ | ⟨rfl, rfl⟩
  · exact h
  · exact h.bound hlo

/-- An atom is evaluated where its statements end, so nothing is left to happen. -/
theorem Gives.atom (h : flattened.Gives steady functions lo hi τ v heap output)
    (hatomic : flattened.value.isAtomic = true) :
    ∃ τ₁ : Store, Runs steady functions (.block flattened.bindings) τ (.ended .next) τ₁ ∧
      τ.ChangesOnly (IsTemporary lo hi) τ₁ ∧ τ₁.heap = heap ∧ τ₁.output = output ∧
      Runs steady functions (.expr flattened.value) τ₁ (.value v) τ₁ := by
  obtain ⟨τ₁, hrun, hchanges, hvalue⟩ := h
  have hstore := hvalue.store_eq_of_isAtomic hatomic
  rw [hstore] at hvalue
  exact ⟨τ₁, hrun, hchanges, (congrArg Store.heap hstore).symm,
    (congrArg Store.output hstore).symm, hvalue⟩

/-- The value that decides an operator without a look at the right operand. -/
def decisive (operator : Operator) : Bool :=
  operator == .or

end Flattened

/-! ## Plain programs -/

/-- Whether an expression itself is no `begin` and mentions no generated name. -/
def Expr.isPlain (e : Expr) : Bool :=
  !e.isBegin && e.ownNames.all (!·.isGenerated)

/-- Whether a statement itself mentions no generated name. -/
def Stmt.isPlain (s : Stmt) : Bool :=
  s.ownNames.all (!·.isGenerated)

/-- All parts of the expression are plain. -/
def Expr.Plain (e : Expr) : Prop :=
  e.every Expr.isPlain Stmt.isPlain = true

/-- All parts of the statement are plain. -/
def Stmt.Plain (s : Stmt) : Prop :=
  s.every Expr.isPlain Stmt.isPlain = true

/-- Both operands of an operator. -/
theorem Expr.Plain.pair {operator : Operator} {lhs rhs : Expr}
    (h : (Expr.primitive operator [lhs, rhs]).Plain) : lhs.Plain ∧ rhs.Plain := by
  rw [Expr.Plain, Expr.every, Bool.and_eq_true] at h
  have hall := Expr.everyIn_iff.mp h.2
  exact ⟨hall lhs (by simp), hall rhs (by simp)⟩

/-- The parts of a conditional. -/
theorem Stmt.Plain.ifElse {condition : Expr} {positive negative : List Stmt}
    (h : (Stmt.ifElse condition positive negative).Plain) :
    condition.Plain ∧ (∀ s ∈ positive, s.Plain) ∧ ∀ s ∈ negative, s.Plain := by
  rw [Stmt.Plain, Stmt.every, Bool.and_eq_true, Bool.and_eq_true, Bool.and_eq_true] at h
  exact ⟨h.1.1.2, Stmt.everyIn_iff.mp h.1.2, Stmt.everyIn_iff.mp h.2⟩

theorem Expr.not_plain_begin (statements : List Stmt) (value : Expr) :
    ¬(Expr.begin statements value).Plain := by
  simp [Expr.Plain, Expr.every, Expr.isPlain, Expr.isBegin]

/-- The names of an expression that are looked up where it stands are not generated. -/
theorem Expr.Plain.ownNames {e : Expr} (h : e.Plain) :
    ∀ name ∈ e.ownNames, ¬name.Generated := by
  intro name hname
  cases e with
  | var own =>
    simp only [Expr.ownNames, List.mem_singleton] at hname
    subst hname
    simp only [Expr.Plain, Expr.every, Expr.isPlain, Expr.ownNames, Bool.and_eq_true] at h
    simpa [Name.Generated] using h.2
  | _ => cases hname

/-- The atom that an expression is flattened to has a name of the expression or a temporary. -/
theorem Expr.isAtomic_flatten {e : Expr} {flattened : Flattened} (hplain : e.Plain)
    (h : e.flatten true s = .ok (flattened, s')) :
    flattened.value.isAtomic = true ∧ ∀ name ∈ flattened.value.ownNames,
      ¬name.Generated ∨ IsTemporary s.issued s'.issued name := by
  have hsettled : ∀ {fl settled : Flattened} {s₁ : NameSupply}, s.issued ≤ s₁.issued →
      fl.settle true s₁ = .ok (settled, s') → (fl.value.isAtomic = true →
        ∀ name ∈ fl.value.ownNames, IsTemporary s.issued s₁.issued name) →
      settled.value.isAtomic = true ∧
        ∀ name ∈ settled.value.ownNames, ¬name.Generated ∨ IsTemporary s.issued s'.issued name := by
    intro fl settled s₁ hle hsettle hnames
    rcases Flattened.settle_eq_ok hsettle with ⟨rfl, rfl, hatomic⟩ | ⟨rfl, rfl⟩
    · exact ⟨hatomic rfl, fun name hname => .inr (hnames (hatomic rfl) name hname)⟩
    · refine ⟨rfl, fun name hname => .inr ?_⟩
      simp only [Flattened.bound, Expr.ownNames, List.mem_singleton] at hname
      subst hname
      exact (isTemporary_nextName s₁).mono hle (Nat.le_refl _)
  cases e with
  | var name =>
    cases h
    exact ⟨rfl, fun name hname => .inl (hplain.ownNames name hname)⟩
  | const value =>
    cases h
    exact ⟨rfl, fun name hname => by cases hname⟩
  | primitive operator operands =>
    rcases operator.strict_or_pair_or_refused operands with hop | ⟨hop, ⟨lhs, rhs, rfl⟩ | hrefused⟩
    · rw [Expr.flatten_strict hop, bind_eq_ok] at h
      obtain ⟨⟨bindings, atoms⟩, s₁, hall, h⟩ := h
      exact hsettled (Expr.grows_flattenAll (grows_flatten.exprs operands) _ _ _ hall) h
        fun hatomic => by cases hatomic
    · rw [Expr.flatten_shortCircuit hop, bind_eq_ok] at h
      obtain ⟨fl, s₁, hfl, h⟩ := h
      have hgrows := Flattened.grows_shortCircuit operator rhs (grows_flatten.expr lhs true)
        (grows_flatten.expr rhs false) _ _ _ hfl
      refine hsettled hgrows h ?_
      obtain ⟨lhs', s₂, hl, hcases⟩ := Flattened.shortCircuit_eq_ok hfl
      have hle := grows_flatten.expr lhs true _ _ _ hl
      rcases hcases with ⟨-, rfl, -⟩ | ⟨rhs', hr, rfl⟩
      · exact fun h => by cases h
      · intro _ name hname
        simp only [Expr.ownNames, List.mem_singleton] at hname
        subst hname
        exact (isTemporary_nextName s₂).mono hle (grows_flatten.expr rhs false _ _ _ hr)
    · exact absurd h (Expr.flatten_refused hop true hrefused s _)
  | call target arguments =>
    rw [Expr.flatten, bind_eq_ok] at h
    obtain ⟨target', s₁, ht, h⟩ := h
    obtain ⟨⟨bindings, atoms⟩, s₂, hall, h⟩ := bind_eq_ok.mp h
    have h₁ := grows_flatten.expr target true _ _ _ ht
    have h₂ := Expr.grows_flattenAll (grows_flatten.exprs arguments) _ _ _ hall
    exact hsettled (Nat.le_trans h₁ h₂) h fun hatomic => by cases hatomic
  | tuple fields =>
    rw [Expr.flatten, bind_eq_ok] at h
    obtain ⟨⟨bindings, atoms⟩, s₁, hall, h⟩ := h
    exact hsettled (Expr.grows_flattenAll (grows_flatten.exprs fields) _ _ _ hall) h
      fun hatomic => by cases hatomic
  | begin statements value =>
    simp [Expr.Plain, Expr.every, Expr.isPlain, Expr.isBegin] at hplain
  | global name | allocate bytes ty =>
    rw [Expr.flatten] at h
    exact hsettled (Nat.le_refl _) h fun hatomic => by cases hatomic

/-! ## The simulation -/

/-- The second function is the first one with its body flattened; the first one is plain. -/
structure Function.FlattensTo (f f' : Function) : Prop where
  name : f'.name = f.name
  parameters : f'.parameters = f.parameters
  plain : ∀ s ∈ f.body, s.Plain
  body : ∃ s s', Stmt.flattenBlock f.body s = .ok (f'.body, s')

namespace Interpreter

/-- What flattening does to a task is done by the run of the task. -/
def Task.FlattensSoundly (steady : Bool) (functions : Std.ExtTreeMap Name Function) :
    Task → Store → Outcome → Store → Prop
  | .expr e, σ, .value v, σ' => e.Plain → σ'.locals = σ.locals ∧
    ∀ atomic s flattened s', e.flatten atomic s = .ok (flattened, s') →
      ∀ τ, σ.Agrees Name.Generated τ →
        flattened.Gives steady functions s.issued s'.issued τ v σ'.heap σ'.output
  | .exprs es, σ, .values vs, σ' => (∀ e ∈ es, e.Plain) → σ'.locals = σ.locals ∧
    ∀ s bindings atoms s', Expr.flattenAll es s = .ok ((bindings, atoms), s') →
      ∀ τ, σ.Agrees Name.Generated τ → ∃ τ₁ : Store,
        Runs steady functions (.block bindings) τ (.ended .next) τ₁ ∧
        τ.ChangesOnly (IsTemporary s.issued s'.issued) τ₁ ∧ τ₁.heap = σ'.heap ∧
        τ₁.output = σ'.output ∧ Runs steady functions (.exprs atoms) τ₁ (.values vs) τ₁
  | .stmt st, σ, .ended c, σ' => st.Plain →
    ∀ s ss s', st.flatten s = .ok (ss, s') → ∀ τ, σ.Agrees Name.Generated τ →
      ∃ τ', Runs steady functions (.block ss) τ (.ended c) τ' ∧ σ'.Agrees Name.Generated τ'
  | .block ss, σ, .ended c, σ' => (∀ st ∈ ss, st.Plain) →
    ∀ s ss' s', Stmt.flattenBlock ss s = .ok (ss', s') → ∀ τ, σ.Agrees Name.Generated τ →
      ∃ τ', Runs steady functions (.block ss') τ (.ended c) τ' ∧ σ'.Agrees Name.Generated τ'
  | .turn e ss, σ, .ended c, σ' => e.Plain → (∀ st ∈ ss, st.Plain) →
    ∀ s s₁ s₂ s₃ s₄ flattened test ss', e.flatten false s = .ok (flattened, s₁) →
      flattened.asTest s₁ = .ok (test, s₂) → Stmt.flattenBlock ss s₃ = .ok (ss', s₄) →
      ∀ τ, σ.Agrees Name.Generated τ → ∃ τ',
        Runs steady functions (.turn test.asLoopCondition ss') τ (.ended c) τ' ∧
        σ'.Agrees Name.Generated τ'
  | _, _, _, _ => True

variable {σ σ' τ τ₁ σ₁ : Store} {v : Value} {flattened : Flattened} {operator : Operator}
  {e lhs rhs : Expr} {s s₁ : NameSupply}

/-- After a flattened expression the stores agree again. -/
theorem Store.Agrees.after {lo hi : Nat} (h : σ.Agrees Name.Generated τ)
    (hlocals : σ'.locals = σ.locals) (hchanges : τ.ChangesOnly (IsTemporary lo hi) τ₁)
    (hheap : τ₁.heap = σ'.heap) (houtput : τ₁.output = σ'.output) :
    σ'.Agrees Name.Generated τ₁ := by
  refine ⟨fun name hname => ?_, hheap, houtput⟩
  rw [hlocals, ← h.locals name hname]
  exact hchanges name fun hn => hname hn.isGenerated

variable {steady : Bool} {functions : Std.ExtTreeMap Name Function}

/-- The statements of a flattened expression run, and after its evaluation the stores agree. -/
theorem Task.FlattensSoundly.value {atomic : Bool}
    (h : Task.FlattensSoundly steady functions (.expr e) σ (.value v) σ') (hplain : e.Plain)
    (hflat : e.flatten atomic s = .ok (flattened, s₁)) (hτ : σ.Agrees Name.Generated τ) :
    ∃ τ₁ τ₂, Runs steady functions (.block flattened.bindings) τ (.ended .next) τ₁ ∧
      Runs steady functions (.expr flattened.value) τ₁ (.value v) τ₂ ∧
      σ'.Agrees Name.Generated τ₂ := by
  obtain ⟨hlocals, hgives⟩ := h hplain
  obtain ⟨τ₁, hrun, hchanges, hvalue⟩ := hgives _ _ _ _ hflat τ hτ
  exact ⟨τ₁, _, hrun, hvalue, hτ.after hlocals hchanges rfl rfl⟩

/-- A statement that begins with the value of an expression can be followed if it can be followed
from where the flattened expression has given that value. -/
theorem Task.FlattensSoundly.statement {atomic : Bool} {completion : Completion}
    (make : Expr → Stmt) (h : Task.FlattensSoundly steady functions (.expr e) σ (.value v) σ₁)
    (hflatten : (make e).flatten =
      e.flatten atomic >>= fun value => pure (value.bindings ++ [make value.value]))
    (hevery : (make e).every Expr.isPlain Stmt.isPlain =
      ((make e).isPlain && e.every Expr.isPlain Stmt.isPlain))
    (hrest : (make e).isPlain = true → ∀ value τ τ₁,
      Runs steady functions (.expr value) τ (.value v) τ₁ → σ₁.Agrees Name.Generated τ₁ →
      ∃ τ', Runs steady functions (.stmt (make value)) τ (.ended completion) τ' ∧
        σ'.Agrees Name.Generated τ') :
    Task.FlattensSoundly steady functions (.stmt (make e)) σ (.ended completion) σ' := by
  intro hplain s ss s' hflat τ hτ
  rw [Stmt.Plain, hevery, Bool.and_eq_true] at hplain
  rw [hflatten, bind_pure_eq_ok] at hflat
  obtain ⟨flattened, hvalue, rfl⟩ := hflat
  obtain ⟨τ₁, τ₂, hrun, hrun', hτ₂⟩ := h.value hplain.2 hvalue hτ
  obtain ⟨τ', hstatement, hτ'⟩ := hrest hplain.1 _ _ _ hrun' hτ₂
  exact ⟨τ', hrun.append (.single hstatement), hτ'⟩

/-- The same for the test that an expression becomes. -/
theorem Task.FlattensSoundly.test {s₂ : NameSupply} {test : Flattened}
    (h : Task.FlattensSoundly steady functions (.expr e) σ (.value v) σ') (hplain : e.Plain)
    (hflat : e.flatten false s = .ok (flattened, s₁)) (htest : flattened.asTest s₁ = .ok (test, s₂))
    (hτ : σ.Agrees Name.Generated τ) :
    ∃ τ₁ τ₂, Runs steady functions (.block test.bindings) τ (.ended .next) τ₁ ∧
      Runs steady functions (.expr test.value) τ₁ (.value v) τ₂ ∧
      σ'.Agrees Name.Generated τ₂ := by
  obtain ⟨hlocals, hgives⟩ := h hplain
  obtain ⟨τ₁, hrun, hchanges, hvalue⟩ :=
    (hgives _ _ _ _ hflat τ hτ).asTest (grows_flatten.expr e false _ _ _ hflat) htest
  exact ⟨τ₁, _, hrun, hvalue, hτ.after hlocals hchanges rfl rfl⟩

/-- The condition of a loop runs its statements and then gives its value. -/
theorem runs_asLoopCondition {test : Flattened} {τ₂ : Store}
    (hrun : Runs steady functions (.block test.bindings) τ (.ended .next) τ₁)
    (hvalue : Runs steady functions (.expr test.value) τ₁ (.value v) τ₂) :
    Runs steady functions (.expr test.asLoopCondition) τ (.value v) τ₂ := by
  unfold Flattened.asLoopCondition
  split
  · rename_i hempty
    rw [List.isEmpty_iff.mp hempty] at hrun
    cases hrun
    exact hvalue
  · exact .beginNext hrun hvalue

/-- The statements that flatten later expressions leave the value of an atom as it is. -/
theorem Runs.keep_atom {hi : Nat} {τ₂ : Store} (hplain : e.Plain)
    (hflat : e.flatten true s = .ok (flattened, s₁))
    (h : Runs steady functions (.expr flattened.value) τ₁ (.value v) τ₁)
    (hchanges : τ₁.ChangesOnly (IsTemporary s₁.issued hi) τ₂) :
    Runs steady functions (.expr flattened.value) τ₂ (.value v) τ₂ := by
  obtain ⟨hatomic, hnames⟩ := Expr.isAtomic_flatten hplain hflat
  refine h.atom_congr hatomic (fun name hname => hchanges name ?_) fun _ => rfl
  rcases hnames name hname with hplain | htemporary
  · exact fun hn => hplain hn.isGenerated
  · exact htemporary.not_later

/-- An operator that may skip its right operand, from what the left one gives and from what happens
then: where the operator keeps its place, and where it becomes a conditional. -/
theorem flattensSoundly_shortCircuit (hop : operator.isShortCircuiting = true) {σ₂ : Store}
    {b b' : Bool} (hlhs : Task.FlattensSoundly steady functions (.expr lhs) σ (.value (.bool b)) σ₁)
    (hrhs : rhs.Plain → σ₂.locals = σ₁.locals ∧
      (rhs.isAtomic = true → ∀ atom τ, σ₁.Agrees Name.Generated τ →
        Runs steady functions (.expr atom) τ (.value (.bool b)) τ →
        Runs steady functions (.expr (.primitive operator [atom, rhs])) τ (.value (.bool b'))
          { τ with heap := σ₂.heap, output := σ₂.output }) ∧
      ∀ s rhs' s', rhs.flatten false s = .ok (rhs', s') → ∀ atom result τ,
        σ₁.Agrees Name.Generated τ → Runs steady functions (.expr atom) τ (.value (.bool b)) τ →
        ∃ τ₁ : Store, τ.ChangesOnly (IsTemporary s.issued s'.issued) τ₁ ∧
          Runs steady functions (.stmt (Flattened.choice operator atom result rhs')) τ
            (.ended .next) ⟨τ₁.locals.insert result (.bool b'), σ₂.heap, σ₂.output⟩) :
    Task.FlattensSoundly steady functions (.expr (.primitive operator [lhs, rhs])) σ
      (.value (.bool b')) σ₂ := by
  intro hplain
  obtain ⟨hplain, hplain'⟩ := hplain.pair
  obtain ⟨hlocals, hl⟩ := hlhs hplain
  obtain ⟨hlocals', hatom, hchoice⟩ := hrhs hplain'
  refine ⟨hlocals'.trans hlocals, fun atomic s flattened s' hflat τ hτ => ?_⟩
  rw [Expr.flatten_shortCircuit hop, bind_eq_ok] at hflat
  obtain ⟨fl, s₁, hfl, hsettle⟩ := hflat
  have hgrows := Flattened.grows_shortCircuit operator rhs (grows_flatten.expr lhs true)
    (grows_flatten.expr rhs false) _ _ _ hfl
  refine Flattened.Gives.settle ?_ hgrows hsettle
  obtain ⟨lhs', s₂, hl', hcases⟩ := Flattened.shortCircuit_eq_ok hfl
  have hle := grows_flatten.expr lhs true _ _ _ hl'
  obtain ⟨τ₁, hrun, hchanges, hheap, houtput, hvalue⟩ :=
    (hl _ _ _ _ hl' τ hτ).atom (Expr.isAtomic_flatten hplain hl').1
  have hτ₁ := hτ.after hlocals hchanges hheap houtput
  rcases hcases with ⟨hatomic, rfl, rfl⟩ | ⟨rhs', hr, rfl⟩
  · exact ⟨τ₁, hrun, hchanges, hatom hatomic _ τ₁ hτ₁ hvalue⟩
  · have hlater := grows_flatten.expr rhs false _ _ _ hr
    obtain ⟨τ₂, hchanges', hrun'⟩ := hchoice _ _ _ hr _ (Flattened.nextName s₂) τ₁ hτ₁ hvalue
    refine ⟨_, hrun.append (.single hrun'), ?_, .local (by simp)⟩
    have hbefore : τ.ChangesOnly (IsTemporary s.issued s₁.issued) τ₂ :=
      hchanges.trans hchanges'
        (fun name hn => hn.mono (Nat.le_refl _) (Nat.le_trans (Nat.le_succ _) hlater))
        (fun name hn => hn.mono (Nat.le_trans hle (Nat.le_succ _)) (Nat.le_refl _))
    have hnext := (isTemporary_nextName s₂).mono hle hlater
    exact hbefore.trans (Store.changesOnly_insert hnext { τ₂ with heap := _, output := _ } _)
      (fun name hn => hn) (fun name hn => hn)

/-- An operator whose left operand decides, from what its parts do. -/
theorem flattensSoundly_of_decided (hop : operator.isShortCircuiting = true)
    (hlhs : Task.FlattensSoundly steady functions (.expr lhs) σ
      (.value (.bool (Flattened.decisive operator))) σ₁) :
    Task.FlattensSoundly steady functions (.expr (.primitive operator [lhs, rhs])) σ
      (.value (.bool (Flattened.decisive operator))) σ₁ := by
  refine flattensSoundly_shortCircuit hop hlhs fun _ => ⟨rfl, ?_, ?_⟩
  · intro _ atom τ hτ hatom
    rw [← hτ.heap, ← hτ.output]
    cases operator with
    | and => exact .andFalse hatom
    | or => exact .orTrue hatom
    | _ => cases hop
  · intro s rhs' s' _ atom result τ hτ hatom
    refine ⟨τ, fun _ _ => rfl, ?_⟩
    rw [← hτ.heap, ← hτ.output]
    cases operator with
    | and => exact .ifFalse hatom (.single (.assign (.bool _)))
    | or => exact .ifTrue hatom (.single (.assign (.bool _)))
    | _ => cases hop

/-- An operator whose left operand does not decide, from what its parts do. -/
theorem flattensSoundly_of_undecided {functions' : Std.ExtTreeMap Name Function}
    (hfunctions : ∀ name, functions.contains name = functions'.contains name)
    (hop : operator.isShortCircuiting = true) {σ₂ : Store} {b : Bool}
    (hlhs : Task.FlattensSoundly steady functions (.expr lhs) σ
      (.value (.bool !Flattened.decisive operator)) σ₁)
    (hrun : Runs steady functions' (.expr rhs) σ₁ (.value (.bool b)) σ₂)
    (hrhs : Task.FlattensSoundly steady functions (.expr rhs) σ₁ (.value (.bool b)) σ₂) :
    Task.FlattensSoundly steady functions (.expr (.primitive operator [lhs, rhs])) σ
      (.value (.bool b)) σ₂ := by
  refine flattensSoundly_shortCircuit hop hlhs fun hplain => ?_
  obtain ⟨hlocals, hr⟩ := hrhs hplain
  refine ⟨hlocals, ?_, ?_⟩
  · intro hatomic atom τ hτ hatom
    cases hrun.store_eq_of_isAtomic hatomic
    rw [← hτ.heap, ← hτ.output]
    have hvalue : Runs steady functions (.expr rhs) τ (.value (.bool b)) τ := hrun.atom_congr
      hatomic (fun name hname => hτ.locals name (hplain.ownNames name hname)) hfunctions
    cases operator with
    | and => exact .andTrue hatom hvalue
    | or => exact .orFalse hatom hvalue
    | _ => cases hop
  · intro s rhs' s' hr' atom result τ hτ hatom
    obtain ⟨τ₁, hbindings, hchanges, hvalue⟩ := hr _ _ _ _ hr' τ hτ
    refine ⟨τ₁, hchanges, ?_⟩
    cases operator with
    | and => exact .ifTrue hatom (hbindings.append (.single (.assign hvalue)))
    | or => exact .ifFalse hatom (hbindings.append (.single (.assign hvalue)))
    | _ => cases hop

/-- An expression that stays in its place and leaves the store as it is. -/
theorem Task.FlattensSoundly.leaf
    (hflatten : ∀ atomic, e.flatten atomic = Flattened.settle atomic ⟨[], e⟩)
    (h : e.Plain → ∀ τ, σ.Agrees Name.Generated τ →
      Runs steady functions (.expr e) τ (.value v) τ) :
    Task.FlattensSoundly steady functions (.expr e) σ (.value v) σ := by
  refine fun hplain => ⟨rfl, fun atomic s flattened s' hflat τ hτ => ?_⟩
  rw [hflatten] at hflat
  refine Flattened.Gives.settle (.leaf s.issued ?_) (Nat.le_refl _) hflat
  rw [← hτ.heap, ← hτ.output]
  exact h hplain τ hτ

/-- A run of a plain task can be followed by a run of what flattening makes of the task. -/
theorem Runs.flattensSoundly {functions' : Std.ExtTreeMap Name Function}
    (htables : TablesMatch Function.FlattensTo functions functions') {task : Task}
    {outcome : Outcome} (h : Runs steady functions task σ outcome σ') :
    task.FlattensSoundly steady functions' σ outcome σ' := by
  -- on the run; temporaries are generated names, which plain code never reads
  induction h with
  | @«local» σ name value hlocal =>
    refine .leaf (fun atomic => by cases atomic <;> rfl) fun hplain τ hτ => .local ?_
    exact (hτ.locals name (hplain.ownNames name (by simp [Expr.ownNames]))).trans hlocal
  | @function σ name hlocal hfunction =>
    refine .leaf (fun atomic => by cases atomic <;> rfl) fun hplain τ hτ => .function ?_ ?_
    · exact (hτ.locals name (hplain.ownNames name (by simp [Expr.ownNames]))).trans hlocal
    · exact (htables.contains name).trans hfunction
  | int value => exact .leaf (fun atomic => by cases atomic <;> rfl) fun _ _ _ => .int value
  | bool value => exact .leaf (fun atomic => by cases atomic <;> rfl) fun _ _ _ => .bool value
  | andTrue _ hr ihl ihr | orFalse _ hr ihl ihr =>
    exact flattensSoundly_of_undecided htables.contains rfl ihl hr ihr
  | andFalse _ ihl | orTrue _ ihl => exact flattensSoundly_of_decided rfl ihl
  | @primitive σ σ₁ operator operands values value hstrict hs hvalue ih =>
    intro hplain
    rw [Expr.Plain, Expr.every, Bool.and_eq_true] at hplain
    obtain ⟨hlocals, hall⟩ := ih (Expr.everyIn_iff.mp hplain.2)
    refine ⟨hlocals, fun atomic s flattened s' hflat τ hτ => ?_⟩
    rw [Expr.flatten_strict hstrict, bind_eq_ok] at hflat
    obtain ⟨⟨bindings, atoms⟩, s₁, hatoms, hsettle⟩ := hflat
    obtain ⟨τ₁, hrun, hchanges, hheap, houtput, hvalues⟩ := hall s bindings atoms s₁ hatoms τ hτ
    have hgrows := Expr.grows_flattenAll (grows_flatten.exprs operands) _ _ _ hatoms
    refine Flattened.Gives.settle ⟨τ₁, hrun, hchanges, ?_⟩ hgrows hsettle
    rw [← hheap, ← houtput]
    exact .primitive hstrict hvalues (hheap ▸ hvalue)
  | @call σ σ₁ σ₂ σ₃ target arguments name values function completion ht hs hfunction hbody iht iha
      ihb =>
    intro hplain
    rw [Expr.Plain, Expr.every, Bool.and_eq_true, Bool.and_eq_true] at hplain
    obtain ⟨hlocals, htarget⟩ := iht hplain.1.2
    obtain ⟨hlocals', harguments⟩ := iha (Expr.everyIn_iff.mp hplain.2)
    refine ⟨hlocals'.trans hlocals, fun atomic s flattened s' hflat τ hτ => ?_⟩
    rw [Expr.flatten, bind_eq_ok] at hflat
    obtain ⟨target', s₁, ht', hflat⟩ := hflat
    obtain ⟨⟨bindings, atoms⟩, s₂, hatoms, hsettle⟩ := bind_eq_ok.mp hflat
    have hle₁ := grows_flatten.expr target true _ _ _ ht'
    have hle₂ := Expr.grows_flattenAll (grows_flatten.exprs arguments) _ _ _ hatoms
    obtain ⟨τ₁, hrun, hchanges, hheap, houtput, hvalue⟩ :=
      (htarget _ _ _ _ ht' τ hτ).atom (Expr.isAtomic_flatten hplain.1.2 ht').1
    obtain ⟨τ₂, hrun', hchanges', hheap', houtput', hvalues⟩ := harguments s₁ bindings atoms s₂
      hatoms τ₁ (hτ.after hlocals hchanges hheap houtput)
    obtain ⟨f', hf', hflattens⟩ := htables.find hfunction
    obtain ⟨s₃, s₄, hbody'⟩ := hflattens.body
    obtain ⟨τ₃, hrun'', hτ₃⟩ := ihb hflattens.plain _ _ _ hbody'
      { τ₂ with locals := bindArguments (f'.parameters.map Prod.fst) values }
      ⟨fun name _ => by rw [hflattens.parameters], hheap', houtput'⟩
    refine Flattened.Gives.settle ⟨τ₂, hrun.append hrun', ?_, ?_⟩ (Nat.le_trans hle₁ hle₂) hsettle
    · exact hchanges.trans hchanges' (fun _ hn => hn.mono (Nat.le_refl _) hle₂)
        (fun _ hn => hn.mono hle₁ (Nat.le_refl _))
    · rw [← hτ₃.heap, ← hτ₃.output]
      exact .call (hvalue.keep_atom hplain.1.2 ht' hchanges') hvalues hf' hrun''
  | @tuple σ σ₁ fields values hs ih =>
    intro hplain
    rw [Expr.Plain, Expr.every, Bool.and_eq_true] at hplain
    obtain ⟨hlocals, hall⟩ := ih (Expr.everyIn_iff.mp hplain.2)
    refine ⟨hlocals, fun atomic s flattened s' hflat τ hτ => ?_⟩
    rw [Expr.flatten, bind_eq_ok] at hflat
    obtain ⟨⟨bindings, atoms⟩, s₁, hatoms, hsettle⟩ := hflat
    obtain ⟨τ₁, hrun, hchanges, hheap, houtput, hvalues⟩ := hall s bindings atoms s₁ hatoms τ hτ
    have hgrows := Expr.grows_flattenAll (grows_flatten.exprs fields) _ _ _ hatoms
    refine Flattened.Gives.settle ⟨τ₁, hrun, hchanges, ?_⟩ hgrows hsettle
    rw [← hheap, ← houtput]
    exact .tuple hvalues
  | beginReturned _ _ _ | beginNext _ _ _ _ =>
    exact fun hplain => absurd hplain (Expr.not_plain_begin _ _)
  | global name => exact .leaf (fun _ => by rw [Expr.flatten]) fun _ _ _ => .global name
  | allocate bytes fields =>
    refine fun _ => ⟨rfl, fun atomic s flattened s' hflat τ hτ => ?_⟩
    rw [Expr.flatten] at hflat
    refine Flattened.Gives.settle (.leaf s.issued ?_) (Nat.le_refl _) hflat
    rw [← hτ.heap, ← hτ.output]
    exact .allocate bytes fields
  | exprsNil =>
    refine fun _ => ⟨rfl, fun s bindings atoms s' hflat τ hτ => ?_⟩
    cases hflat
    exact ⟨τ, .blockNil, fun _ _ => rfl, hτ.heap, hτ.output, .exprsNil⟩
  | @exprsCons σ σ₁ σ₂ e es v vs _ _ ihv ihs =>
    intro hplain
    obtain ⟨hplain, hplains⟩ := List.forall_mem_cons.mp hplain
    obtain ⟨hlocals, hfirst⟩ := ihv hplain
    obtain ⟨hlocals', hrest⟩ := ihs hplains
    refine ⟨hlocals'.trans hlocals, fun s bindings atoms s' hflat τ hτ => ?_⟩
    rw [Expr.flattenAll, bind_eq_ok] at hflat
    obtain ⟨first, s₁, hfirst', hflat⟩ := hflat
    obtain ⟨⟨bindings', atoms'⟩, s₂, hrest', hflat⟩ := bind_eq_ok.mp hflat
    cases hflat
    have hle₁ := grows_flatten.expr e true _ _ _ hfirst'
    have hle₂ := Expr.grows_flattenAll (grows_flatten.exprs es) _ _ _ hrest'
    obtain ⟨τ₁, hrun, hchanges, hheap, houtput, hvalue⟩ :=
      (hfirst _ _ _ _ hfirst' τ hτ).atom (Expr.isAtomic_flatten hplain hfirst').1
    obtain ⟨τ₂, hrun', hchanges', hheap', houtput', hvalues⟩ := hrest s₁ _ _ _ hrest' τ₁
      (hτ.after hlocals hchanges hheap houtput)
    refine ⟨τ₂, hrun.append hrun', ?_, hheap', houtput',
      .exprsCons (hvalue.keep_atom hplain hfirst' hchanges') hvalues⟩
    exact hchanges.trans hchanges' (fun _ hn => hn.mono (Nat.le_refl _) hle₂)
      (fun _ hn => hn.mono hle₁ (Nat.le_refl _))
  | assign _ ih =>
    refine ih.statement (.assign _) rfl rfl ?_
    exact fun _ _ _ _ hrun hτ => ⟨_, .assign hrun, hτ.insert _ _⟩
  | print _ hword ih =>
    refine ih.statement .print rfl rfl ?_
    intro _ value τ τ₁ hrun hτ
    exact ⟨_, .print hrun hword, ⟨hτ.locals, hτ.heap, by rw [hτ.output]⟩⟩
  | ret _ ih =>
    refine ih.statement .ret rfl rfl ?_
    exact fun _ _ _ _ hrun hτ => ⟨_, .ret hrun, hτ⟩
  | @setField σ σ₁ tuple index value result address _ htuple hindex ih =>
    refine ih.statement (.setField tuple index) rfl rfl ?_
    intro hplain value τ τ₁ hrun hτ
    have hname : ¬tuple.Generated := by
      simpa [Stmt.isPlain, Stmt.ownNames, Name.Generated] using hplain
    refine ⟨_, .setField hrun ((hτ.locals tuple hname).trans htuple) ?_,
      ⟨hτ.locals, ?_, hτ.output⟩⟩
    · rw [hτ.heap]
      exact hindex
    · rw [hτ.heap]
  | @ifTrue σ σ₁ σ₂ condition positive negative completion _ _ ihc ihs =>
    intro hplain s ss s' hflat τ hτ
    obtain ⟨hplainc, hplainp, -⟩ := hplain.ifElse
    obtain ⟨test, s₁, positive', s₂, negative', ⟨fl, s₀, hfl, htest⟩, hp, -, rfl⟩ :=
      Stmt.flatten_ifElse_eq_ok hflat
    obtain ⟨τ₁, τ₂, hrun, hrun', hτ₂⟩ := ihc.test hplainc hfl htest hτ
    obtain ⟨τ₃, hrun'', hτ₃⟩ := ihs hplainp _ _ _ hp τ₂ hτ₂
    exact ⟨τ₃, hrun.append (.single (.ifTrue hrun' hrun'')), hτ₃⟩
  | @ifFalse σ σ₁ σ₂ condition positive negative completion _ _ ihc ihs =>
    intro hplain s ss s' hflat τ hτ
    obtain ⟨hplainc, -, hplainn⟩ := hplain.ifElse
    obtain ⟨test, s₁, positive', s₂, negative', ⟨fl, s₀, hfl, htest⟩, -, hn, rfl⟩ :=
      Stmt.flatten_ifElse_eq_ok hflat
    obtain ⟨τ₁, τ₂, hrun, hrun', hτ₂⟩ := ihc.test hplainc hfl htest hτ
    obtain ⟨τ₃, hrun'', hτ₃⟩ := ihs hplainn _ _ _ hn τ₂ hτ₂
    exact ⟨τ₃, hrun.append (.single (.ifFalse hrun' hrun'')), hτ₃⟩
  | whileDo _ ih =>
    intro hplain s ss s' hflat τ hτ
    rw [Stmt.Plain, Stmt.every, Bool.and_eq_true, Bool.and_eq_true] at hplain
    rw [Stmt.flatten, bind_eq_ok] at hflat
    obtain ⟨fl, s₁, hfl, hflat⟩ := hflat
    rw [bind₂_eq_ok] at hflat
    obtain ⟨test, s₂, body, htest, hbody, rfl⟩ := hflat
    obtain ⟨τ', hrun, hτ'⟩ := ih hplain.1.2 (Stmt.everyIn_iff.mp hplain.2) _ _ _ _ _ _ _ _ hfl
      htest hbody τ hτ
    exact ⟨τ', .single (.whileDo hrun), hτ'⟩
  | define name parameters output body =>
    intro _ s ss s' hflat τ hτ
    rw [Stmt.flatten, bind_pure_eq_ok] at hflat
    obtain ⟨body', -, rfl⟩ := hflat
    exact ⟨τ, .single (.define name parameters output body'), hτ⟩
  | collect bytes =>
    intro _ s ss s' hflat τ hτ
    cases hflat
    exact ⟨τ, .single (.collect bytes), hτ⟩
  | blockNil =>
    intro _ s ss s' hflat τ hτ
    cases hflat
    exact ⟨τ, .blockNil, hτ⟩
  | blockReturned _ ih =>
    intro hplain s ss s' hflat τ hτ
    rw [Stmt.flattenBlock, bind₂_eq_ok] at hflat
    obtain ⟨first, s₁, rest, hfirst, -, rfl⟩ := hflat
    obtain ⟨τ₁, hrun, hτ₁⟩ := ih (List.forall_mem_cons.mp hplain).1 _ _ _ hfirst τ hτ
    exact ⟨τ₁, hrun.append_of_returned, hτ₁⟩
  | blockNext _ _ ihs ihr =>
    intro hplain s ss s' hflat τ hτ
    rw [Stmt.flattenBlock, bind₂_eq_ok] at hflat
    obtain ⟨first, s₁, rest, hfirst, hrest, rfl⟩ := hflat
    obtain ⟨τ₁, hrun, hτ₁⟩ := ihs (List.forall_mem_cons.mp hplain).1 _ _ _ hfirst τ hτ
    obtain ⟨τ₂, hrun', hτ₂⟩ := ihr (List.forall_mem_cons.mp hplain).2 _ _ _ hrest τ₁ hτ₁
    exact ⟨τ₂, hrun.append hrun', hτ₂⟩
  | turnStop _ ihc =>
    intro hplain _ s s₁ s₂ s₃ s₄ fl test ss' hfl htest _ τ hτ
    obtain ⟨τ₁, τ₂, hrun, hrun', hτ₂⟩ := ihc.test hplain hfl htest hτ
    exact ⟨τ₂, .turnStop (runs_asLoopCondition hrun hrun'), hτ₂⟩
  | turnReturned _ _ ihc ihs =>
    intro hplain hplains s s₁ s₂ s₃ s₄ fl test ss' hfl htest hbody τ hτ
    obtain ⟨τ₁, τ₂, hrun, hrun', hτ₂⟩ := ihc.test hplain hfl htest hτ
    obtain ⟨τ₃, hrun'', hτ₃⟩ := ihs hplains _ _ _ hbody τ₂ hτ₂
    exact ⟨τ₃, .turnReturned (runs_asLoopCondition hrun hrun') hrun'', hτ₃⟩
  | turnNext _ _ _ ihc ihs iht =>
    intro hplain hplains s s₁ s₂ s₃ s₄ fl test ss' hfl htest hbody τ hτ
    obtain ⟨τ₁, τ₂, hrun, hrun', hτ₂⟩ := ihc.test hplain hfl htest hτ
    obtain ⟨τ₃, hrun'', hτ₃⟩ := ihs hplains _ _ _ hbody τ₂ hτ₂
    obtain ⟨τ₄, hturn, hτ₄⟩ := iht hplain hplains _ _ _ _ _ _ _ _ hfl htest hbody τ₃ hτ₃
    exact ⟨τ₄, .turnNext (runs_asLoopCondition hrun hrun') hrun'' hturn, hτ₄⟩

end Interpreter

/-! ## Programs -/

/-- The statements that a plain expression needs define no function. -/
theorem flatInvariant_function? :
    FlatInvariant Expr.isPlain Stmt.isPlain (fun _ => True)
      (fun inside st => inside = true → st.function? = none) where
  outside _ _ h := by cases h
  inside _ _ h := by simp [Expr.isPlain, Expr.isBegin] at h
  atom _ _ := trivial
  primitive _ _ _ _ _ _ _ := trivial
  call _ _ _ _ _ _ _ _ := trivial
  tuple _ _ := trivial
  global _ _ := trivial
  allocate _ _ := trivial
  assign _ _ _ _ _ _ := rfl
  ifElse _ _ _ _ _ _ _ _ _ := rfl
  whileDo _ _ _ _ _ _ _ := rfl
  print _ _ _ := rfl
  ret _ _ _ _ _ := rfl
  define _ _ _ _ _ h := by cases h
  collect _ _ := rfl
  setField _ _ _ _ _ := rfl

/-- A statement after those that a plain expression needs is the only one to define a function. -/
theorem Flattened.Holds.filterMap_function? {flattened : Flattened} {atomic : Bool}
    (h : flattened.Holds (fun _ => True) (fun st => true = true → st.function? = none) atomic)
    {last : Stmt} (hlast : last.function? = none) :
    (flattened.bindings ++ [last]).filterMap Stmt.function? = [] := by
  refine List.filterMap_eq_nil_iff.mpr (List.forall_mem_append.mpr ⟨?_, ?_⟩)
  · exact fun st hst => h.bindings st hst rfl
  · exact List.forall_mem_singleton.mpr hlast

/-- A plain statement is flattened to the function that it defines, if any, and nothing else. -/
theorem Stmt.Plain.flattensTo {st : Stmt} {ss : List Stmt} (hplain : st.Plain)
    (h : st.flatten s = .ok (ss, s')) :
    List.Forall₂ Function.FlattensTo st.function?.toList (ss.filterMap Stmt.function?) := by
  have hinvariant := flatInvariant_function?
  -- All but loops and definitions are a flattened expression and one statement more.
  have hnone : ∀ {value : Expr} {atomic : Bool} {last : Flattened → Stmt},
      value.every Expr.isPlain Stmt.isPlain = true → (∀ fl, (last fl).function? = none) →
      (do let fl ← value.flatten atomic; return fl.bindings ++ [last fl] : Lowering (List Stmt)) s =
        .ok (ss, s') → ss.filterMap Stmt.function? = [] := by
    intro value atomic last hvalue hlast h
    rw [bind_pure_eq_ok] at h
    obtain ⟨fl, hfl, rfl⟩ := h
    exact (hinvariant.flatten.expr value hvalue _ _ _ _ hfl).filterMap_function? (hlast fl)
  cases st with
  | assign target value | print value | ret value | setField tuple index value =>
    rw [Stmt.Plain, Stmt.every, Bool.and_eq_true] at hplain
    rw [Stmt.flatten] at h
    rw [hnone hplain.2 (fun _ => rfl) h]
    exact .nil
  | ifElse condition positive negative =>
    obtain ⟨hplain, -, -⟩ := hplain.ifElse
    obtain ⟨test, s₁, positive', s₂, negative', ⟨fl, s₀, hfl, htest⟩, -, -, rfl⟩ :=
      Stmt.flatten_ifElse_eq_ok h
    have hholds := hinvariant.flatten.expr condition hplain _ _ _ _ hfl
    rw [(hinvariant.asTest hholds htest).1.filterMap_function? rfl]
    exact .nil
  | whileDo condition body =>
    rw [Stmt.flatten, bind_eq_ok] at h
    obtain ⟨fl, s₁, -, h⟩ := h
    rw [bind₂_eq_ok] at h
    obtain ⟨test, s₂, body', -, -, rfl⟩ := h
    exact .nil
  | define name parameters output body =>
    rw [Stmt.Plain, Stmt.every, Bool.and_eq_true] at hplain
    rw [Stmt.flatten, bind_pure_eq_ok] at h
    obtain ⟨body', hbody, rfl⟩ := h
    exact .cons ⟨rfl, rfl, Stmt.everyIn_iff.mp hplain.2, s, s', hbody⟩ .nil
  | collect bytes =>
    cases h
    exact .nil

/-- The functions of a flattened program are the flattened functions of the program. -/
theorem Stmt.flattensTo_functions {ss ss' : List Stmt} (hplain : ∀ st ∈ ss, st.Plain)
    (h : Stmt.flattenBlock ss s = .ok (ss', s')) :
    List.Forall₂ Function.FlattensTo (ss.filterMap Stmt.function?)
      (ss'.filterMap Stmt.function?) := by
  induction ss generalizing s ss' with
  | nil =>
    cases h
    exact .nil
  | cons st ss ih =>
    obtain ⟨hst, hss⟩ := List.forall_mem_cons.mp hplain
    rw [Stmt.flattenBlock, bind₂_eq_ok] at h
    obtain ⟨first, s₁, rest, hfirst, hrest, rfl⟩ := h
    have hcons : (st :: ss).filterMap Stmt.function? =
        st.function?.toList ++ ss.filterMap Stmt.function? := by
      cases hf : st.function? <;> simp [hf]
    rw [hcons, List.filterMap_append]
    exact List.rel_append (hst.flattensTo hfirst) (ih hss hrest)

/-- A program without `begin` and generated names is plain. -/
theorem Program.plain {program : Program} (hbegin : program.isBeginFree = true)
    (hnames : program.everyName (!·.isGenerated) = true) :
    ∀ s ∈ program.statements, s.Plain := by
  refine Stmt.everyIn_iff.mp ?_
  have hsplit : program.every Expr.isPlain Stmt.isPlain =
      (program.isBeginFree && program.everyName (!·.isGenerated)) := by
    simp only [Program.isBeginFree, Program.everyName, Program.every, ← Stmt.everyIn_and]
    congr 1
  rw [hbegin, hnames] at hsplit
  exact hsplit

/-- What a plain program prints in a run, it also prints once it is flat. -/
theorem Program.Prints.flatten {program flat : Program} {steady : Bool}
    {supply supply' : NameSupply} {output : List Word} (hbegin : program.isBeginFree = true)
    (hnames : program.everyName (!·.isGenerated) = true)
    (hflat : program.flatten supply = .ok (flat, supply'))
    (h : program.Prints steady output) : flat.Prints steady output := by
  have hplain := Program.plain hbegin hnames
  rw [Program.flatten, bind_pure_eq_ok] at hflat
  obtain ⟨statements, hblock, rfl⟩ := hflat
  have htables : TablesMatch Function.FlattensTo (functionTable program)
      (functionTable ⟨statements⟩) :=
    tablesMatch_foldl (fun _ _ hf => hf.name) (Stmt.flattensTo_functions hplain hblock)
      fun _ => .none
  obtain ⟨completion, σ, hrun, hout⟩ := h
  obtain ⟨τ, hrun', hτ⟩ := hrun.flattensSoundly htables hplain _ _ _ hblock {}
    ⟨fun _ _ => rfl, rfl, rfl⟩
  exact ⟨completion, τ, hrun', by rw [hτ.output, hout]⟩

/-- Flattening keeps what a program prints: if a program in which neither `begin` nor a generated
name occurs prints some words, its flat form prints the same ones, on a budget of its own. -/
theorem Program.exists_interpret_flatten {program flat : Program} {supply supply' : NameSupply}
    {budget : Nat} {output : List Word} (hbegin : program.isBeginFree = true)
    (hnames : program.everyName (!·.isGenerated) = true)
    (hflat : program.flatten supply = .ok (flat, supply'))
    (h : program.interpret budget = .ok output) :
    ∃ budget', flat.interpret budget' = .ok output := by
  rw [Program.exists_interpret_iff]
  have hprints := Program.exists_interpret_iff.mp ⟨budget, h⟩
  exact hprints.flatten hbegin hnames hflat

/-- A loop that calls a function in its condition, while a bound is not reached. -/
def Program.boundedSearch : Program := ⟨[
  .define "small" [("n", .int)] .bool [.print (.var "n"), .ret (.primitive .lt [.var "n", .int 2])],
  .assign "i" (.int 0),
  .whileDo (.primitive .and [.primitive .lt [.var "i", .int 9], .call (.var "small") [.var "i"]])
    [.assign "i" (.primitive .add [.var "i", .int 1])],
  .print (.var "i")]⟩

/-- The flat form of `Program.boundedSearch`: the condition is a `begin` with a conditional in
it. -/
def Program.boundedSearchFlat : Program := ⟨[
  .define "small" [("n", .int)] .bool [.print (.var "n"),
    .assign "tmp.1" (.primitive .lt [.var "n", .int 2]), .ret (.var "tmp.1")],
  .assign "i" (.int 0),
  .whileDo (.begin [.assign "tmp.2" (.primitive .lt [.var "i", .int 9]),
      .ifElse (.var "tmp.2") [.assign "tmp.3" (.call (.var "small") [.var "i"])]
        [.assign "tmp.3" (.bool false)]] (.var "tmp.3"))
    [.assign "i" (.primitive .add [.var "i", .int 1])],
  .print (.var "i")]⟩

set_option maxRecDepth 4000 in
/-- A loop with two conditions, before and after. -/
theorem Program.exists_interpret_boundedSearchFlat :
    Program.boundedSearch.isBeginFree = true ∧
    Program.boundedSearch.everyName (!·.isGenerated) = true ∧
    Program.boundedSearch.flatten ⟨0⟩ = .ok (Program.boundedSearchFlat, ⟨3⟩) ∧
    Program.boundedSearch.interpret 100 = .ok [0, 1, 2, 2] ∧
    ∃ budget, Program.boundedSearchFlat.interpret budget = .ok [0, 1, 2, 2] := by
  have hbegin : Program.boundedSearch.isBeginFree = true := rfl
  have hnames : Program.boundedSearch.everyName (!·.isGenerated) = true := by decide
  have hflat : Program.boundedSearch.flatten ⟨0⟩ = .ok (Program.boundedSearchFlat, ⟨3⟩) := rfl
  have hrun : Program.boundedSearch.interpret 100 = .ok [0, 1, 2, 2] := by decide +kernel
  exact ⟨hbegin, hnames, hflat, hrun,
    Program.exists_interpret_flatten hbegin hnames hflat hrun⟩

end TupleLang
