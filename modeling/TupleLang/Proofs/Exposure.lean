import Mathlib.Algebra.GroupWithZero.Nat
import Mathlib.Data.List.Nodup
import TupleLang.Proofs.AllocationCode

/-!
# Explicit allocation keeps what a program prints

`Exposes` relates a block to what the stage makes of it: some of its tuple literals are replaced by
code, with variables from a list of names that the block does not use.  It need not be all of
them, since literals inside of an expression stay as they are, and a run may still come by there.

`Runs.exposes` follows a run of a task by a run of a related task, with stores that agree outside of
the new names; the case of a literal is `runs_code`.  `exposesFrom_topLevel` shows that the stage
makes related programs, and which names it takes on the way (`Program.allocationNames`).  Together
they are the main statement, `Program.exists_interpret_exposeAllocation`.
-/

namespace TupleLang

open Interpreter Stateful

/-! ## Programs before and after -/

/-- The second block is the first one, with some of its tuple literals replaced by the code that
builds the tuples.  The new variables are taken from the given names. -/
inductive Exposes (taken : List Name) : List Stmt → List Stmt → Prop where
  | nil : Exposes taken [] []
  | same {s : Stmt} {ss ss' : List Stmt} (h : Exposes taken ss ss') :
    Exposes taken (s :: ss) (s :: ss')
  | tuple {target used next limit : Name} {saved : List (Name × Expr)} {types : List Ty}
      {ss ss' : List Stmt} (hatomic : ∀ field ∈ saved, field.2.isAtomic = true)
      (hlength : types.length = saved.length)
      (hnew : ∀ name ∈ used :: next :: limit :: saved.map Prod.fst, name ∈ taken)
      (hnodup : (used :: next :: limit :: saved.map Prod.fst).Nodup) (h : Exposes taken ss ss') :
    Exposes taken (.assign target (.tuple (saved.map Prod.snd)) :: ss)
      (Allocation.code target saved used next limit types ++ ss')
  | ifElse {condition : Expr} {positive positive' negative negative' ss ss' : List Stmt}
      (hp : Exposes taken positive positive') (hn : Exposes taken negative negative')
      (h : Exposes taken ss ss') :
    Exposes taken (.ifElse condition positive negative :: ss)
      (.ifElse condition positive' negative' :: ss')
  | whileDo {condition : Expr} {body body' ss ss' : List Stmt} (hb : Exposes taken body body')
      (h : Exposes taken ss ss') :
    Exposes taken (.whileDo condition body :: ss) (.whileDo condition body' :: ss')
  | whileBegin {statements statements' body body' ss ss' : List Stmt} {value : Expr}
      (hs : Exposes taken statements statements') (hb : Exposes taken body body')
      (h : Exposes taken ss ss') :
    Exposes taken (.whileDo (.begin statements value) body :: ss)
      (.whileDo (.begin statements' value) body' :: ss')
  | define {name : Name} {parameters : List (Name × Ty)} {output : Ty}
      {body body' ss ss' : List Stmt} (hb : Exposes taken body body') (h : Exposes taken ss ss') :
    Exposes taken (.define name parameters output body :: ss)
      (.define name parameters output body' :: ss')

/-- Nothing is made explicit. -/
theorem Exposes.refl (taken : List Name) (ss : List Stmt) : Exposes taken ss ss := by
  induction ss with
  | nil => exact .nil
  | cons s ss ih => exact .same ih

variable {taken : List Name} {ss ts ss' positive negative : List Stmt} {condition : Expr}
  {environment : TypeEnvironment} {s : NameSupply}

/-- What a block becomes is what its first statement and the other ones become. -/
theorem Exposes.split {s : Stmt} (h : Exposes taken (s :: ss) ts) :
    ∃ first rest, ts = first ++ rest ∧ Exposes taken [s] first ∧ Exposes taken ss rest := by
  cases h with
  | same h => exact ⟨[s], _, rfl, .same .nil, h⟩
  | tuple hatomic hlength hnew hnodup h =>
    exact ⟨_, _, rfl, by simpa using Exposes.tuple hatomic hlength hnew hnodup .nil, h⟩
  | ifElse hp hn h => exact ⟨[_], _, rfl, .ifElse hp hn .nil, h⟩
  | whileDo hb h => exact ⟨[_], _, rfl, .whileDo hb .nil, h⟩
  | whileBegin hs hb h => exact ⟨[_], _, rfl, .whileBegin hs hb .nil, h⟩
  | define hb h => exact ⟨[_], _, rfl, .define hb .nil, h⟩

/-- Two parts, one after the other. -/
theorem Exposes.append {ts' : List Stmt} (h : Exposes taken ss ss') (ht : Exposes taken ts ts') :
    Exposes taken (ss ++ ts) (ss' ++ ts') := by
  induction h with
  | nil => exact ht
  | same _ ih => exact .same ih
  | tuple hatomic hlength hnew hnodup _ ih =>
    rw [List.append_assoc]
    exact .tuple hatomic hlength hnew hnodup ih
  | ifElse hp hn _ _ _ ih => exact .ifElse hp hn ih
  | whileDo hb _ _ ih => exact .whileDo hb ih
  | whileBegin hs hb _ _ _ ih => exact .whileBegin hs hb ih
  | define hb _ _ ih => exact .define hb ih

/-- A conditional becomes a conditional. -/
theorem Exposes.of_ifElse (h : Exposes taken [.ifElse condition positive negative] ts) :
    ∃ positive' negative', ts = [.ifElse condition positive' negative'] ∧
      Exposes taken positive positive' ∧ Exposes taken negative negative' := by
  cases h with
  | same h =>
    cases h
    exact ⟨positive, negative, rfl, .refl taken positive, .refl taken negative⟩
  | ifElse hp hn h =>
    cases h
    exact ⟨_, _, rfl, hp, hn⟩

/-- The statement uses none of the names. -/
def Stmt.Avoids (taken : List Name) (s : Stmt) : Prop :=
  s.every (·.ownNames.all (· ∉ taken)) (·.ownNames.all (· ∉ taken)) = true

/-- The expression uses none of the names. -/
def Expr.Avoids (taken : List Name) (e : Expr) : Prop :=
  e.every (·.ownNames.all (· ∉ taken)) (·.ownNames.all (· ∉ taken)) = true

/-- The names of an expression that avoids some. -/
theorem Expr.Avoids.ownNames {e : Expr} (h : e.Avoids taken) :
    ∀ name ∈ e.ownNames, name ∉ taken := by
  cases e with
  | var name => simpa [Expr.Avoids, Expr.every] using h
  | _ => exact nofun

/-- Both operands avoid them. -/
theorem Expr.Avoids.pair {operator : Operator} {lhs rhs : Expr}
    (h : (Expr.primitive operator [lhs, rhs]).Avoids taken) :
    lhs.Avoids taken ∧ rhs.Avoids taken := by
  rw [Expr.Avoids, Expr.every, Bool.and_eq_true] at h
  have hall := Expr.everyIn_iff.mp h.2
  exact ⟨hall lhs (by simp), hall rhs (by simp)⟩

/-- All parts of a conditional avoid them. -/
theorem Stmt.Avoids.ifElse (h : (Stmt.ifElse condition positive negative).Avoids taken) :
    condition.Avoids taken ∧ (∀ s ∈ positive, s.Avoids taken) ∧ ∀ s ∈ negative, s.Avoids taken := by
  rw [Stmt.Avoids, Stmt.every, Bool.and_eq_true, Bool.and_eq_true, Bool.and_eq_true] at h
  exact ⟨h.1.1.2, Stmt.everyIn_iff.mp h.1.2, Stmt.everyIn_iff.mp h.2⟩

/-- The second function is the first one with its allocations made explicit; the first one uses
none of the new names. -/
structure Function.ExposesTo (taken : List Name) (f f' : Function) : Prop where
  name : f'.name = f.name
  parameters : f'.parameters = f.parameters
  avoids : ∀ s ∈ f.body, s.Avoids taken
  body : Exposes taken f.body f'.body

namespace Interpreter

/-- The second task is the first one with some of its allocations made explicit. -/
inductive Task.ExposesTo (taken : List Name) : Task → Task → Prop where
  | expr {e : Expr} (he : e.Avoids taken) : Task.ExposesTo taken (.expr e) (.expr e)
  | begin {ss ss' : List Stmt} {e : Expr} (hss : ∀ s ∈ ss, s.Avoids taken) (he : e.Avoids taken)
      (h : Exposes taken ss ss') :
    Task.ExposesTo taken (.expr (.begin ss e)) (.expr (.begin ss' e))
  | exprs {es : List Expr} (hes : ∀ e ∈ es, e.Avoids taken) :
    Task.ExposesTo taken (.exprs es) (.exprs es)
  | stmt {s : Stmt} {ss : List Stmt} (hs : s.Avoids taken) (h : Exposes taken [s] ss) :
    Task.ExposesTo taken (.stmt s) (.block ss)
  | block {ss ss' : List Stmt} (hss : ∀ s ∈ ss, s.Avoids taken) (h : Exposes taken ss ss') :
    Task.ExposesTo taken (.block ss) (.block ss')
  | turn {e e' : Expr} {ss ss' : List Stmt} (hss : ∀ s ∈ ss, s.Avoids taken)
      (he : Task.ExposesTo taken (.expr e) (.expr e')) (h : Exposes taken ss ss') :
    Task.ExposesTo taken (.turn e ss) (.turn e' ss')

/-- What a sequence may become. -/
theorem Task.ExposesTo.of_begin {taken : List Name} {ss : List Stmt} {e : Expr} {task : Task}
    (h : Task.ExposesTo taken (.expr (.begin ss e)) task) :
    ∃ ss', task = .expr (.begin ss' e) ∧ (∀ s ∈ ss, s.Avoids taken) ∧ e.Avoids taken ∧
      Exposes taken ss ss' := by
  cases h with
  | expr he =>
    rw [Expr.Avoids, Expr.every, Bool.and_eq_true, Bool.and_eq_true] at he
    exact ⟨ss, rfl, Stmt.everyIn_iff.mp he.1.2, he.2, .refl taken ss⟩
  | «begin» hss he h => exact ⟨_, rfl, hss, he, h⟩

/-- A run can be followed by a run of the task with its allocations made explicit. -/
theorem Runs.exposes {steady : Bool} {functions functions' : Std.ExtTreeMap Name Function}
    {taken : List Name} (htables : TablesMatch (Function.ExposesTo taken) functions functions')
    {task task' : Task} {σ σ' τ : Store} {outcome : Outcome}
    (h : Runs steady functions task σ outcome σ') (htask : task.ExposesTo taken task')
    (hτ : σ.Agrees (· ∈ taken) τ) :
    ∃ τ', Runs steady functions' task' τ outcome τ' ∧ σ'.Agrees (· ∈ taken) τ' := by
  -- on the run; only an assignment of a tuple becomes other code
  induction h generalizing task' τ with
  | «local» hlocal =>
    cases htask with
    | expr he =>
      have hname := he.ownNames _ (List.mem_singleton_self _)
      exact ⟨τ, .local ((hτ.locals _ hname).trans hlocal), hτ⟩
  | function hlocal hfunction =>
    cases htask with
    | expr he =>
      have hname := he.ownNames _ (List.mem_singleton_self _)
      exact ⟨τ, .function ((hτ.locals _ hname).trans hlocal)
        ((htables.contains _).trans hfunction), hτ⟩
  | int value =>
    cases htask with
    | expr he => exact ⟨τ, .int value, hτ⟩
  | bool value =>
    cases htask with
    | expr he => exact ⟨τ, .bool value, hτ⟩
  | andTrue _ _ ihl ihr =>
    cases htask with
    | expr he =>
      obtain ⟨hl, hr⟩ := he.pair
      obtain ⟨τ₁, hrun, hτ₁⟩ := ihl (.expr hl) hτ
      obtain ⟨τ₂, hrun', hτ₂⟩ := ihr (.expr hr) hτ₁
      exact ⟨τ₂, .andTrue hrun hrun', hτ₂⟩
  | andFalse _ ihl =>
    cases htask with
    | expr he =>
      obtain ⟨τ₁, hrun, hτ₁⟩ := ihl (.expr he.pair.1) hτ
      exact ⟨τ₁, .andFalse hrun, hτ₁⟩
  | orTrue _ ihl =>
    cases htask with
    | expr he =>
      obtain ⟨τ₁, hrun, hτ₁⟩ := ihl (.expr he.pair.1) hτ
      exact ⟨τ₁, .orTrue hrun, hτ₁⟩
  | orFalse _ _ ihl ihr =>
    cases htask with
    | expr he =>
      obtain ⟨hl, hr⟩ := he.pair
      obtain ⟨τ₁, hrun, hτ₁⟩ := ihl (.expr hl) hτ
      obtain ⟨τ₂, hrun', hτ₂⟩ := ihr (.expr hr) hτ₁
      exact ⟨τ₂, .orFalse hrun hrun', hτ₂⟩
  | primitive hstrict _ hvalue ih =>
    cases htask with
    | expr he =>
      rw [Expr.Avoids, Expr.every, Bool.and_eq_true] at he
      obtain ⟨τ₁, hrun, hτ₁⟩ := ih (.exprs (Expr.everyIn_iff.mp he.2)) hτ
      exact ⟨τ₁, .primitive hstrict hrun (hτ₁.heap ▸ hvalue), hτ₁⟩
  | @call _ _ σ₂ _ _ _ _ values _ _ _ _ hfunction _ iht iha ihb =>
    cases htask with
    | expr he =>
      rw [Expr.Avoids, Expr.every, Bool.and_eq_true, Bool.and_eq_true] at he
      obtain ⟨τ₁, hrun, hτ₁⟩ := iht (.expr he.1.2) hτ
      obtain ⟨τ₂, hrun', hτ₂⟩ := iha (.exprs (Expr.everyIn_iff.mp he.2)) hτ₁
      obtain ⟨f', hf', hexposes⟩ := htables.find hfunction
      have hagrees : Store.Agrees (· ∈ taken) { σ₂ with locals := bindArguments _ values }
          { τ₂ with locals := bindArguments (f'.parameters.map Prod.fst) values } :=
        ⟨fun name _ => by rw [hexposes.parameters], hτ₂.heap, hτ₂.output⟩
      obtain ⟨τ₃, hrun'', hτ₃⟩ := ihb (.block hexposes.avoids hexposes.body) hagrees
      exact ⟨_, .call hrun hrun' hf' hrun'', hτ₂.locals, hτ₃.heap, hτ₃.output⟩
  | tuple _ ih =>
    cases htask with
    | expr he =>
      rw [Expr.Avoids, Expr.every, Bool.and_eq_true] at he
      obtain ⟨τ₁, hrun, hτ₁⟩ := ih (.exprs (Expr.everyIn_iff.mp he.2)) hτ
      rw [← hτ₁.heap]
      exact ⟨_, .tuple hrun, hτ₁.locals, by rw [hτ₁.heap], hτ₁.output⟩
  | beginReturned hsteady _ ih =>
    obtain ⟨ss', rfl, hss, -, hexposes⟩ := htask.of_begin
    obtain ⟨τ₁, hrun, hτ₁⟩ := ih (.block hss hexposes) hτ
    exact ⟨τ₁, .beginReturned hsteady hrun, hτ₁⟩
  | beginNext _ _ ihs ihv =>
    obtain ⟨ss', rfl, hss, he, hexposes⟩ := htask.of_begin
    obtain ⟨τ₁, hrun, hτ₁⟩ := ihs (.block hss hexposes) hτ
    obtain ⟨τ₂, hrun', hτ₂⟩ := ihv (.expr he) hτ₁
    exact ⟨τ₂, .beginNext hrun hrun', hτ₂⟩
  | global name =>
    cases htask with
    | expr he => exact ⟨τ, .global name, hτ⟩
  | allocate bytes fields =>
    cases htask with
    | expr he =>
      rw [← hτ.heap]
      exact ⟨_, .allocate bytes fields, hτ.locals, by rw [hτ.heap], hτ.output⟩
  | exprsNil =>
    cases htask
    exact ⟨τ, .exprsNil, hτ⟩
  | exprsCons _ _ ihv ihs =>
    cases htask with
    | exprs hes =>
      obtain ⟨he, hes⟩ := List.forall_mem_cons.mp hes
      obtain ⟨τ₁, hrun, hτ₁⟩ := ihv (.expr he) hτ
      obtain ⟨τ₂, hrun', hτ₂⟩ := ihs (.exprs hes) hτ₁
      exact ⟨τ₂, .exprsCons hrun hrun', hτ₂⟩
  | assign hv ih =>
    cases htask with
    | stmt hs h =>
      rw [Stmt.Avoids, Stmt.every, Bool.and_eq_true] at hs
      cases h with
      | same h =>
        cases h
        obtain ⟨τ₁, hrun, hτ₁⟩ := ih (.expr hs.2) hτ
        exact ⟨_, .single (.assign hrun), hτ₁.insert _ _⟩
      | tuple hatomic hlength hnew hnodup h =>
        cases h
        obtain ⟨htarget, hfields⟩ := hs
        rw [Expr.every, Bool.and_eq_true] at hfields
        have hold := List.forall_mem_map.mp (Expr.everyIn_iff.mp hfields.2)
        cases hv with
        | tuple hvalues =>
          rw [List.append_nil]
          exact runs_code htables.contains hatomic hlength hnew hnodup
            (fun field hfield => Expr.Avoids.ownNames (hold field hfield))
            (by simpa [Stmt.ownNames] using htarget) hvalues hτ
  | print _ hword ih =>
    cases htask with
    | stmt hs h =>
      rw [Stmt.Avoids, Stmt.every, Bool.and_eq_true] at hs
      cases h with
      | same h =>
        cases h
        obtain ⟨τ₁, hrun, hτ₁⟩ := ih (.expr hs.2) hτ
        exact ⟨_, .single (.print hrun hword), hτ₁.locals, hτ₁.heap, by rw [hτ₁.output]⟩
  | ifTrue _ _ ihc ihs =>
    cases htask with
    | stmt hs h =>
      obtain ⟨hc, hp, -⟩ := hs.ifElse
      obtain ⟨positive', negative', rfl, hexposes, -⟩ := h.of_ifElse
      obtain ⟨τ₁, hrun, hτ₁⟩ := ihc (.expr hc) hτ
      obtain ⟨τ₂, hrun', hτ₂⟩ := ihs (.block hp hexposes) hτ₁
      exact ⟨τ₂, .single (.ifTrue hrun hrun'), hτ₂⟩
  | ifFalse _ _ ihc ihs =>
    cases htask with
    | stmt hs h =>
      obtain ⟨hc, -, hn⟩ := hs.ifElse
      obtain ⟨positive', negative', rfl, -, hexposes⟩ := h.of_ifElse
      obtain ⟨τ₁, hrun, hτ₁⟩ := ihc (.expr hc) hτ
      obtain ⟨τ₂, hrun', hτ₂⟩ := ihs (.block hn hexposes) hτ₁
      exact ⟨τ₂, .single (.ifFalse hrun hrun'), hτ₂⟩
  | @whileDo _ _ condition body _ _ ih =>
    cases htask with
    | stmt hs h =>
      rw [Stmt.Avoids, Stmt.every, Bool.and_eq_true, Bool.and_eq_true] at hs
      have hbody := Stmt.everyIn_iff.mp hs.2
      cases h with
      | same h =>
        cases h
        obtain ⟨τ₁, hrun, hτ₁⟩ := ih (.turn hbody (.expr hs.1.2) (.refl taken body)) hτ
        exact ⟨τ₁, .single (.whileDo hrun), hτ₁⟩
      | whileDo hb h =>
        cases h
        obtain ⟨τ₁, hrun, hτ₁⟩ := ih (.turn hbody (.expr hs.1.2) hb) hτ
        exact ⟨τ₁, .single (.whileDo hrun), hτ₁⟩
      | whileBegin hss hb h =>
        cases h
        have hcondition := hs.1.2
        rw [Expr.every, Bool.and_eq_true, Bool.and_eq_true] at hcondition
        obtain ⟨τ₁, hrun, hτ₁⟩ := ih
          (.turn hbody (.begin (Stmt.everyIn_iff.mp hcondition.1.2) hcondition.2 hss) hb) hτ
        exact ⟨τ₁, .single (.whileDo hrun), hτ₁⟩
  | ret _ ih =>
    cases htask with
    | stmt hs h =>
      rw [Stmt.Avoids, Stmt.every, Bool.and_eq_true] at hs
      cases h with
      | same h =>
        cases h
        obtain ⟨τ₁, hrun, hτ₁⟩ := ih (.expr hs.2) hτ
        exact ⟨_, .single (.ret hrun), hτ₁⟩
  | define name parameters output body =>
    cases htask with
    | stmt hs h =>
      cases h with
      | same h =>
        cases h
        exact ⟨τ, .single (.define name parameters output body), hτ⟩
      | @define _ _ _ _ body' _ _ hb h =>
        cases h
        exact ⟨τ, .single (.define name parameters output body'), hτ⟩
  | collect bytes =>
    cases htask with
    | stmt hs h =>
      cases h with
      | same h =>
        cases h
        exact ⟨τ, .single (.collect bytes), hτ⟩
  | setField _ htuple hindex ih =>
    cases htask with
    | stmt hs h =>
      rw [Stmt.Avoids, Stmt.every, Bool.and_eq_true] at hs
      cases h with
      | same h =>
        cases h
        obtain ⟨τ₁, hrun, hτ₁⟩ := ih (.expr hs.2) hτ
        have hname := hτ₁.locals _ (by simpa [Stmt.ownNames] using hs.1)
        exact ⟨_, .single (.setField hrun (hname.trans htuple) (hτ₁.heap ▸ hindex)), hτ₁.locals,
          by rw [hτ₁.heap], hτ₁.output⟩
  | blockNil =>
    cases htask with
    | block hss h =>
      cases h
      exact ⟨τ, .blockNil, hτ⟩
  | blockReturned _ ih =>
    cases htask with
    | block hss h =>
      obtain ⟨first, rest, rfl, hfirst, -⟩ := h.split
      obtain ⟨τ₁, hrun, hτ₁⟩ := ih (.stmt (List.forall_mem_cons.mp hss).1 hfirst) hτ
      exact ⟨τ₁, hrun.append_of_returned, hτ₁⟩
  | blockNext _ _ ihs ihr =>
    cases htask with
    | block hss h =>
      obtain ⟨first, rest, rfl, hfirst, hrest⟩ := h.split
      obtain ⟨hs, hss⟩ := List.forall_mem_cons.mp hss
      obtain ⟨τ₁, hrun, hτ₁⟩ := ihs (.stmt hs hfirst) hτ
      obtain ⟨τ₂, hrun', hτ₂⟩ := ihr (.block hss hrest) hτ₁
      exact ⟨τ₂, hrun.append hrun', hτ₂⟩
  | turnStop _ ihc =>
    cases htask with
    | turn hss he h =>
      obtain ⟨τ₁, hrun, hτ₁⟩ := ihc he hτ
      exact ⟨τ₁, .turnStop hrun, hτ₁⟩
  | turnReturned _ _ ihc ihs =>
    cases htask with
    | turn hss he h =>
      obtain ⟨τ₁, hrun, hτ₁⟩ := ihc he hτ
      obtain ⟨τ₂, hrun', hτ₂⟩ := ihs (.block hss h) hτ₁
      exact ⟨τ₂, .turnReturned hrun hrun', hτ₂⟩
  | turnNext _ _ _ ihc ihs iht =>
    cases htask with
    | turn hss he h =>
      obtain ⟨τ₁, hrun, hτ₁⟩ := ihc he hτ
      obtain ⟨τ₂, hrun', hτ₂⟩ := ihs (.block hss h) hτ₁
      obtain ⟨τ₃, hrun'', hτ₃⟩ := iht (.turn hss he h) hτ₂
      exact ⟨τ₃, .turnNext hrun hrun' hrun'', hτ₃⟩

end Interpreter

/-! ## What the stage produces -/

namespace Allocation

/-- The names taken for a tuple of the given size, in order. -/
def namesOf (issued size : Nat) : List Name :=
  (List.range' (issued + 1) size).map (NameSupply.nameAt "field") ++
    [NameSupply.nameAt "end" (issued + size + 1), NameSupply.nameAt "next" (issued + size + 2),
      NameSupply.nameAt "limit" (issued + size + 3)]

/-- How many names are taken for tuples of the given sizes. -/
def namesCount (sizes : List Nat) : Nat :=
  (sizes.map (· + 3)).sum

/-- The names taken for tuples of the given sizes, in order. -/
def namesFrom (issued : Nat) : List Nat → List Name
  | [] => []
  | size :: sizes => namesOf issued size ++ namesFrom (issued + (size + 3)) sizes

/-- The names of two lists of tuples. -/
theorem namesCount_append (sizes sizes' : List Nat) :
    namesCount (sizes ++ sizes') = namesCount sizes + namesCount sizes' := by
  simp [namesCount]

/-- They are taken one after the other. -/
theorem namesFrom_append (issued : Nat) (sizes sizes' : List Nat) :
    namesFrom issued (sizes ++ sizes') =
      namesFrom issued sizes ++ namesFrom (issued + namesCount sizes) sizes' := by
  induction sizes generalizing issued with
  | nil => rfl
  | cons size sizes ih =>
    have hcount : issued + namesCount (size :: sizes) = issued + (size + 3) + namesCount sizes := by
      simp only [namesCount, List.map_cons, List.sum_cons]
      omega
    rw [List.cons_append, namesFrom, namesFrom, ih, hcount, List.append_assoc]

/-- The names taken for one tuple differ. -/
theorem nodup_names (issued size : Nat) :
    (NameSupply.nameAt "end" (issued + size + 1) :: NameSupply.nameAt "next" (issued + size + 2) ::
      NameSupply.nameAt "limit" (issued + size + 3) ::
      (List.range' (issued + 1) size).map (NameSupply.nameAt "field")).Nodup := by
  have hfields : ((List.range' (issued + 1) size).map (NameSupply.nameAt "field")).Nodup := by
    refine List.Nodup.map (fun a b hab => ?_) List.nodup_range'
    exact (NameSupply.nameAt_inj.mp hab).2
  simp [NameSupply.nameAt_inj, hfields]

end Allocation

/-- The statements that build a tuple do what the literal does. -/
theorem Allocation.exposes_ofTuple {function target : Name} {fields : List Expr} {s' : NameSupply}
    (h : Allocation.ofTuple environment function target fields s = .ok (ss, s')) :
    s'.issued = s.issued + (fields.length + 3) ∧
      ∀ taken, (∀ name ∈ Allocation.namesOf s.issued fields.length, name ∈ taken) →
        Exposes taken [.assign target (.tuple fields)] ss := by
  obtain ⟨hissued, hatomic, types, hlength, rfl⟩ := Allocation.ofTuple_eq_ok h
  refine ⟨hissued, fun taken htaken => ?_⟩
  let names := (List.range' (s.issued + 1) fields.length).map (NameSupply.nameAt "field")
  have hcount : names.length = fields.length := by simp [names]
  have hfst : (names.zip fields).map Prod.fst = names := List.map_fst_zip (Nat.le_of_eq hcount)
  have hsnd : (names.zip fields).map Prod.snd = fields :=
    List.map_snd_zip (Nat.le_of_eq hcount.symm)
  let used := NameSupply.nameAt "end" (s.issued + fields.length + 1)
  let next := NameSupply.nameAt "next" (s.issued + fields.length + 2)
  let limit := NameSupply.nameAt "limit" (s.issued + fields.length + 3)
  have hnew : ∀ name ∈ used :: next :: limit :: (names.zip fields).map Prod.fst, name ∈ taken := by
    intro name hname
    refine htaken name ?_
    rw [hfst] at hname
    simp only [List.mem_cons] at hname
    simp only [Allocation.namesOf, List.mem_append, List.mem_cons, List.not_mem_nil, or_false]
    tauto
  have hexposes : Exposes taken (.assign target (.tuple ((names.zip fields).map Prod.snd)) :: [])
      (Allocation.code target (names.zip fields) used next limit types ++ []) :=
    .tuple (List.forall_mem_map.mp (hsnd.symm ▸ hatomic)) (by simp [hlength, hcount]) hnew
      (hfst.symm ▸ Allocation.nodup_names s.issued fields.length) .nil
  rw [hsnd, List.append_nil] at hexposes
  exact hexposes

mutual

/-- The sizes of the tuple literals in a statement that are made explicit, in order. -/
def Stmt.literals : Stmt → List Nat
  | .assign _ (.tuple fields) => [fields.length]
  | .ifElse _ positive negative => Stmt.literalsIn positive ++ Stmt.literalsIn negative
  | .whileDo (.begin statements _) body => Stmt.literalsIn statements ++ Stmt.literalsIn body
  | .whileDo _ body => Stmt.literalsIn body
  | .define _ _ _ body => Stmt.literalsIn body
  | _ => []

/-- The sizes of the tuple literals in statements that are made explicit, in order. -/
def Stmt.literalsIn : List Stmt → List Nat
  | [] => []
  | statement :: statements => statement.literals ++ Stmt.literalsIn statements

end

/-- The statements become other statements with names for literals of the given sizes. -/
def ExposesFrom (sizes : List Nat) (before : List Stmt) (stage : Lowering (List Stmt)) : Prop :=
  ∀ s after s', stage s = .ok (after, s') →
    s'.issued = s.issued + Allocation.namesCount sizes ∧
      ∀ taken, (∀ name ∈ Allocation.namesFrom s.issued sizes, name ∈ taken) →
        Exposes taken before after

/-- One stage after the other. -/
theorem ExposesFrom.append {sizes sizes' : List Nat} {before before' : List Stmt}
    {stage stage' : Lowering (List Stmt)} (h : ExposesFrom sizes before stage)
    (h' : ExposesFrom sizes' before' stage') {s₁ s₂ : NameSupply} {after after' : List Stmt}
    (hstage : stage s = .ok (after, s₁)) (hstage' : stage' s₁ = .ok (after', s₂)) :
    s₂.issued = s.issued + Allocation.namesCount (sizes ++ sizes') ∧
      ∀ taken, (∀ name ∈ Allocation.namesFrom s.issued (sizes ++ sizes'), name ∈ taken) →
        Exposes taken before after ∧ Exposes taken before' after' := by
  obtain ⟨hissued, hexposes⟩ := h s after s₁ hstage
  obtain ⟨hissued', hexposes'⟩ := h' s₁ after' s₂ hstage'
  rw [Allocation.namesCount_append, Allocation.namesFrom_append, ← hissued]
  refine ⟨by omega, fun taken htaken => ?_⟩
  obtain ⟨hfirst, hrest⟩ := List.forall_mem_append.mp htaken
  exact ⟨hexposes taken hfirst, hexposes' taken hrest⟩

/-- A statement that stays as it is. -/
theorem exposesFrom_same (statement : Stmt) : ExposesFrom [] [statement] (return [statement]) := by
  intro s after s' h
  cases h
  exact ⟨rfl, fun taken _ => .same .nil⟩

section

variable (environment : TypeEnvironment) (function : Name)

/-- The statements of a block, one after the other. -/
theorem Stmt.exposesFrom_exposeBlock {ss : List Stmt}
    (h : ∀ st ∈ ss, ExposesFrom st.literals [st] (st.exposeAllocation environment function)) :
    ExposesFrom (Stmt.literalsIn ss) ss (Stmt.exposeBlock environment function ss) := by
  induction ss with
  | nil =>
    intro s after s' h
    cases h
    exact ⟨rfl, fun taken _ => .nil⟩
  | cons st ss ih =>
    obtain ⟨hst, hss⟩ := List.forall_mem_cons.mp h
    intro s after s' h
    rw [Stmt.exposeBlock, bind₂_eq_ok] at h
    obtain ⟨first, s₁, rest, hfirst, hrest, rfl⟩ := h
    obtain ⟨hissued, hexposes⟩ := hst.append (ih hss) hfirst hrest
    exact ⟨hissued, fun taken htaken => (hexposes taken htaken).1.append (hexposes taken htaken).2⟩

/-- What `Stmt.exposeAllocation` makes of a statement, and `Stmt.exposeBlock` of the statements that
stand in an expression. -/
theorem exposesFrom_exposeAllocation :
    TreeInduction
      (fun e => ∀ ss value, e = .begin ss value →
        ExposesFrom (Stmt.literalsIn ss) ss (Stmt.exposeBlock environment function ss))
      (fun st => ExposesFrom st.literals [st] (st.exposeAllocation environment function)) where
  var _ _ _ he := nomatch he
  const _ _ _ he := nomatch he
  primitive _ _ _ _ _ he := nomatch he
  call _ _ _ _ _ _ he := nomatch he
  tuple _ _ _ _ he := nomatch he
  begin statements value ihs _ ss value' he := by
    cases he
    exact Stmt.exposesFrom_exposeBlock environment function ihs
  global _ _ _ he := nomatch he
  allocate _ _ _ _ he := nomatch he
  assign target value _ := by
    cases value with
    | tuple fields =>
      intro s after s' h
      rw [Stmt.exposeAllocation] at h
      obtain ⟨hissued, hexposes⟩ := Allocation.exposes_ofTuple h
      refine ⟨by simpa [Stmt.literals, Allocation.namesCount] using hissued, fun taken htaken => ?_⟩
      exact hexposes taken (by simpa [Stmt.literals, Allocation.namesFrom] using htaken)
    | _ => exact exposesFrom_same _
  print value _ := exposesFrom_same _
  ifElse condition positive negative _ ihp ihn := by
    intro s after s' h
    rw [Stmt.exposeAllocation, bind₂_eq_ok] at h
    obtain ⟨positive', s₁, negative', hpositive, hnegative, rfl⟩ := h
    obtain ⟨hissued, hexposes⟩ := (Stmt.exposesFrom_exposeBlock environment function ihp).append
      (Stmt.exposesFrom_exposeBlock environment function ihn) hpositive hnegative
    exact ⟨hissued, fun taken htaken =>
      .ifElse (hexposes taken htaken).1 (hexposes taken htaken).2 .nil⟩
  whileDo condition body ihc ihb := by
    have hbody := Stmt.exposesFrom_exposeBlock environment function ihb
    cases condition with
    | «begin» statements value =>
      intro s after s' h
      rw [Stmt.exposeAllocation, bind₂_eq_ok] at h
      obtain ⟨statements', s₁, body', hstatements, hbody', rfl⟩ := h
      obtain ⟨hissued, hexposes⟩ := (ihc statements value rfl).append hbody hstatements hbody'
      exact ⟨hissued, fun taken htaken =>
        .whileBegin (hexposes taken htaken).1 (hexposes taken htaken).2 .nil⟩
    | _ =>
      intro s after s' h
      rw [Stmt.exposeAllocation, bind_eq_ok] at h
      · obtain ⟨body', s₁, hbody', h⟩ := h
        cases h
        obtain ⟨hissued, hexposes⟩ := hbody _ _ _ hbody'
        exact ⟨hissued, fun taken htaken => .whileDo (hexposes taken htaken) .nil⟩
      · exact nofun
  ret value _ := exposesFrom_same _
  define name parameters output body _ := nofun
  collect bytes := exposesFrom_same _
  setField tuple index value _ := exposesFrom_same _

end

/-- The top level of a program. -/
theorem exposesFrom_exposeTopLevel (environment : TypeEnvironment) (statement : Stmt) :
    ExposesFrom statement.literals [statement] (statement.exposeTopLevel environment) := by
  have hbody := fun function body => Stmt.exposesFrom_exposeBlock environment function
    ((exposesFrom_exposeAllocation environment function).stmts body)
  cases statement with
  | define name parameters output body =>
    intro s after s' h
    rw [Stmt.exposeTopLevel, bind_pure_eq_ok] at h
    obtain ⟨body', hbody', rfl⟩ := h
    obtain ⟨hissued, hexposes⟩ := hbody name body _ _ _ hbody'
    exact ⟨hissued, fun taken htaken => .define (hexposes taken htaken) .nil⟩
  | _ => exact (exposesFrom_exposeAllocation environment Name.entryPoint).stmt _

/-- All statements of a program. -/
theorem exposesFrom_topLevel (environment : TypeEnvironment) (statements : List Stmt) :
    ExposesFrom (Stmt.literalsIn statements) statements (do
      return (← statements.mapM (Stmt.exposeTopLevel environment)).flatten) := by
  induction statements with
  | nil =>
    intro s after s' h
    cases h
    exact ⟨rfl, fun taken _ => .nil⟩
  | cons statement statements ih =>
    intro s after s' h
    rw [bind_pure_eq_ok] at h
    obtain ⟨parts, hparts, rfl⟩ := h
    rw [List.mapM_cons, bind₂_eq_ok] at hparts
    obtain ⟨first, s₁, rest, hfirst, hrest, rfl⟩ := hparts
    obtain ⟨hissued, hexposes⟩ := (exposesFrom_exposeTopLevel environment statement).append ih
      hfirst (bind_of_ok hrest)
    exact ⟨hissued, fun taken htaken => (hexposes taken htaken).1.append (hexposes taken htaken).2⟩

/-- The functions of the two programs are related one by one. -/
theorem Exposes.functions (h : Exposes taken ss ss') (havoids : ∀ s ∈ ss, s.Avoids taken) :
    List.Forall₂ (Function.ExposesTo taken) (ss.filterMap Stmt.function?)
      (ss'.filterMap Stmt.function?) := by
  induction h with
  | nil => exact .nil
  | @same st ss ss' _ ih =>
    obtain ⟨hst, hss⟩ := List.forall_mem_cons.mp havoids
    cases st with
    | define name parameters output body =>
      rw [Stmt.Avoids, Stmt.every, Bool.and_eq_true] at hst
      exact .cons ⟨rfl, rfl, Stmt.everyIn_iff.mp hst.2, .refl taken body⟩ (ih hss)
    | _ => exact ih hss
  | tuple _ _ _ _ _ ih =>
    rw [List.filterMap_append, Allocation.filterMap_code]
    exact ih (List.forall_mem_cons.mp havoids).2
  | ifElse _ _ _ _ _ ih | whileDo _ _ _ ih | whileBegin _ _ _ _ _ ih =>
    exact ih (List.forall_mem_cons.mp havoids).2
  | define hb _ _ ih =>
    obtain ⟨hst, hss⟩ := List.forall_mem_cons.mp havoids
    rw [Stmt.Avoids, Stmt.every, Bool.and_eq_true] at hst
    exact .cons ⟨rfl, rfl, Stmt.everyIn_iff.mp hst.2, hb⟩ (ih hss)

/-- The names that are taken from a supply while the allocations of a program are made explicit. -/
def Program.allocationNames (supply : NameSupply) (program : Program) : List Name :=
  Allocation.namesFrom supply.issued (Stmt.literalsIn program.statements)

/-- What a program prints in a run, it also prints once its allocations are explicit. -/
theorem Program.Prints.exposeAllocation {steady : Bool} {program exposed : Program}
    {supply supply' : NameSupply} {output : List Word}
    (hnames : program.everyName (· ∉ program.allocationNames supply) = true)
    (hexpose : program.exposeAllocation environment supply = .ok (exposed, supply'))
    (h : program.Prints steady output) : exposed.Prints steady output := by
  rw [Program.exposeAllocation, bind_pure_eq_ok] at hexpose
  obtain ⟨parts, hparts, rfl⟩ := hexpose
  have hexposes : Exposes (program.allocationNames supply) program.statements parts.flatten :=
    (exposesFrom_topLevel environment program.statements _ _ _ (bind_of_ok hparts)).2 _
      fun _ hname => hname
  have havoids : ∀ s ∈ program.statements, s.Avoids (program.allocationNames supply) :=
    Stmt.everyIn_iff.mp hnames
  have htables : TablesMatch (Function.ExposesTo (program.allocationNames supply))
      (functionTable program) (functionTable ⟨parts.flatten⟩) :=
    tablesMatch_foldl (fun _ _ hf => hf.name) (hexposes.functions havoids) fun _ => .none
  obtain ⟨completion, σ, hrun, hout⟩ := h
  obtain ⟨τ, hrun', hτ⟩ := hrun.exposes htables (.block havoids hexposes)
    (⟨fun _ _ => rfl, rfl, rfl⟩ : Store.Agrees _ {} {})
  exact ⟨completion, τ, hrun', by rw [hτ.output, hout]⟩

/-- Making allocations explicit keeps what a program prints, if the program uses none of the names
that are taken on the way. -/
theorem Program.exists_interpret_exposeAllocation {program exposed : Program}
    {environment : TypeEnvironment} {supply supply' : NameSupply} {budget : Nat}
    {output : List Word}
    (hnames : program.everyName (· ∉ program.allocationNames supply) = true)
    (hexpose : program.exposeAllocation environment supply = .ok (exposed, supply'))
    (h : program.interpret budget = .ok output) :
    ∃ budget', exposed.interpret budget' = .ok output := by
  rw [Program.exists_interpret_iff]
  have hprints := Program.exists_interpret_iff.mp ⟨budget, h⟩
  exact hprints.exposeAllocation hnames hexpose

/-- A tuple that becomes a field of a new tuple in its own variable, and is changed after that. -/
def Program.sharedPair : Program := ⟨[
  .assign "a" (.tuple [.int 1, .int 2]),
  .assign "b" (.var "a"),
  .assign "a" (.tuple [.var "a", .bool true]),
  .setField "b" 0 (.int 9),
  .assign "c" (.primitive .subscript [.var "a", .int 0]),
  .assign "d" (.primitive .subscript [.var "c", .int 0]),
  .print (.var "d")]⟩

/-- `Program.sharedPair` with its allocations made explicit. -/
def Program.sharedPairExposed : Program := ⟨[
  .assign "field.1" (.int 1),
  .assign "field.2" (.int 2),
  .assign "end.3" (.global "free_ptr"),
  .assign "next.4" (.primitive .add [.var "end.3", .int 24]),
  .assign "limit.5" (.global "fromspace_end"),
  .ifElse (.primitive .lt [.var "next.4", .var "limit.5"]) [] [.collect 24],
  .assign "a" (.allocate 24 (.tuple [.int, .int])),
  .setField "a" 0 (.var "field.1"),
  .setField "a" 1 (.var "field.2"),
  .assign "b" (.var "a"),
  .assign "field.6" (.var "a"),
  .assign "field.7" (.bool true),
  .assign "end.8" (.global "free_ptr"),
  .assign "next.9" (.primitive .add [.var "end.8", .int 24]),
  .assign "limit.10" (.global "fromspace_end"),
  .ifElse (.primitive .lt [.var "next.9", .var "limit.10"]) [] [.collect 24],
  .assign "a" (.allocate 24 (.tuple [.tuple [.int, .int], .bool])),
  .setField "a" 0 (.var "field.6"),
  .setField "a" 1 (.var "field.7"),
  .setField "b" 0 (.int 9),
  .assign "c" (.primitive .subscript [.var "a", .int 0]),
  .assign "d" (.primitive .subscript [.var "c", .int 0]),
  .print (.var "d")]⟩

/-- The types of the variables of `Program.sharedPair`, before the second assignment. -/
def Program.sharedPairTypes : TypeEnvironment where
  locals := (∅ : Std.ExtTreeMap Name VariableTypes).insert Name.entryPoint
    ((∅ : VariableTypes).insert "a" (.tuple [.int, .int]))

/-- A program that shares a pair, before and after. -/
theorem Program.exists_interpret_sharedPairExposed :
    Program.sharedPair.everyName (· ∉ Program.sharedPair.allocationNames ⟨0⟩) = true ∧
    Program.sharedPair.exposeAllocation Program.sharedPairTypes ⟨0⟩ =
      .ok (Program.sharedPairExposed, ⟨10⟩) ∧
    Program.sharedPair.interpret 100 = .ok [9] ∧
    ∃ budget, Program.sharedPairExposed.interpret budget = .ok [9] := by
  have hnames :
      Program.sharedPair.everyName (· ∉ Program.sharedPair.allocationNames ⟨0⟩) = true := by
    decide +kernel
  have hexpose : Program.sharedPair.exposeAllocation Program.sharedPairTypes ⟨0⟩ =
      .ok (Program.sharedPairExposed, ⟨10⟩) := rfl
  have hrun : Program.sharedPair.interpret 100 = .ok [9] := by decide +kernel
  exact ⟨hnames, hexpose, hrun,
    Program.exists_interpret_exposeAllocation hnames hexpose hrun⟩

end TupleLang
