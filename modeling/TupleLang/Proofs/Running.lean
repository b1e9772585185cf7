import TupleLang.Proofs.Adequacy
import TupleLang.Proofs.Occurrence

/-!
# Comparing runs

What the proofs about the stages of the compiler have in common.  They follow a run of a program by
a run of the program that a stage makes of it.  On the way the stores of the two runs have the same
heap and the same output, and their variables agree outside of the names that the stage has brought
in (`Store.Agrees`); the functions of the two programs are related one by one (`TablesMatch`).
-/

namespace TupleLang

/-! ## Runs of atoms and blocks -/

namespace Interpreter

variable {steady : Bool} {functions functions' : Std.ExtTreeMap Name Function} {σ σ₁ σ' τ : Store}
  {v : Value} {ss ts : List Stmt} {completion : Completion} {e : Expr} {p : Name → Prop}

/-- Blocks that run one after the other run as one. -/
theorem Runs.append {σ₂ : Store} (hs : Runs steady functions (.block ss) σ (.ended .next) σ₁)
    (ht : Runs steady functions (.block ts) σ₁ (.ended completion) σ₂) :
    Runs steady functions (.block (ss ++ ts)) σ (.ended completion) σ₂ := by
  generalize htask : Task.block ss = task at hs
  generalize houtcome : Outcome.ended .next = outcome at hs
  induction hs generalizing ss with
  | blockNil =>
    cases htask
    exact ht
  | blockReturned _ _ => cases houtcome
  | blockNext hs _ _ ih =>
    cases htask
    cases houtcome
    exact .blockNext hs (ih ht rfl rfl)
  | _ => cases htask

/-- A block that returns does not get to what follows it. -/
theorem Runs.append_of_returned
    (h : Runs steady functions (.block ss) σ (.ended (.returned v)) σ₁) :
    Runs steady functions (.block (ss ++ ts)) σ (.ended (.returned v)) σ₁ := by
  generalize htask : Task.block ss = task at h
  generalize houtcome : Outcome.ended (.returned v) = outcome at h
  induction h generalizing ss with
  | blockNil => cases houtcome
  | blockReturned hs _ =>
    cases htask
    cases houtcome
    exact .blockReturned hs
  | blockNext hs _ _ ih =>
    cases htask
    cases houtcome
    exact .blockNext hs (ih rfl rfl)
  | _ => cases htask

/-- A block of one statement runs as the statement does. -/
theorem Runs.single {s : Stmt} (h : Runs steady functions (.stmt s) σ (.ended completion) σ₁) :
    Runs steady functions (.block [s]) σ (.ended completion) σ₁ := by
  cases completion with
  | next => exact .blockNext h .blockNil
  | returned value => exact .blockReturned h

/-- The evaluation of an atom changes nothing. -/
theorem Runs.store_eq_of_isAtomic (he : e.isAtomic = true)
    (h : Runs steady functions (.expr e) σ (.value v) σ') : σ' = σ := by
  cases h <;> first | rfl | cases he

/-- An atom keeps its value where its name keeps its meaning. -/
theorem Runs.atom_congr (he : e.isAtomic = true)
    (h : Runs steady functions (.expr e) σ (.value v) σ')
    (hlocals : ∀ name ∈ e.ownNames, τ.locals[name]? = σ.locals[name]?)
    (hfunctions : ∀ name, functions'.contains name = functions.contains name) :
    Runs steady functions' (.expr e) τ (.value v) τ := by
  cases h with
  | «local» h => exact .local ((hlocals _ (by simp [Expr.ownNames])).trans h)
  | function h hname =>
    exact .function ((hlocals _ (by simp [Expr.ownNames])).trans h) ((hfunctions _).trans hname)
  | int value => exact .int value
  | bool value => exact .bool value
  | _ => cases he

/-- Atoms keep their values where their names keep their meaning. -/
theorem Runs.atoms_congr {es : List Expr} {vs : List Value} (hes : ∀ e ∈ es, e.isAtomic = true)
    (h : Runs steady functions (.exprs es) σ (.values vs) σ')
    (hlocals : ∀ e ∈ es, ∀ name ∈ e.ownNames, τ.locals[name]? = σ.locals[name]?)
    (hfunctions : ∀ name, functions'.contains name = functions.contains name) :
    σ' = σ ∧ Runs steady functions' (.exprs es) τ (.values vs) τ := by
  induction es generalizing vs with
  | nil =>
    cases h
    exact ⟨rfl, .exprsNil⟩
  | cons e es ih =>
    obtain ⟨he, hes⟩ := List.forall_mem_cons.mp hes
    obtain ⟨hlocals, hlocals'⟩ := List.forall_mem_cons.mp hlocals
    cases h with
    | exprsCons hv hs =>
      cases hv.store_eq_of_isAtomic he
      obtain ⟨hstore, hrest⟩ := ih hes hs hlocals'
      exact ⟨hstore, .exprsCons (hv.atom_congr he hlocals hfunctions) hrest⟩

/-! ## Stores that agree -/

/-- The second store differs from the first one at most in some of the variables. -/
def Store.ChangesOnly (changed : Name → Prop) (σ τ : Store) : Prop :=
  ∀ name, ¬changed name → τ.locals[name]? = σ.locals[name]?

theorem Store.ChangesOnly.trans {q r : Name → Prop} {υ : Store} (h : σ.ChangesOnly p τ)
    (h' : τ.ChangesOnly q υ) (hp : ∀ name, p name → r name) (hq : ∀ name, q name → r name) :
    σ.ChangesOnly r υ := fun name hname =>
  (h' name fun hn => hname (hq name hn)).trans (h name fun hn => hname (hp name hn))

/-- Assigning one of the variables changes no other. -/
theorem Store.changesOnly_insert {name : Name} (hname : p name) (σ : Store) (v : Value) :
    σ.ChangesOnly p { σ with locals := σ.locals.insert name v } := by
  intro other hother
  have hne : name ≠ other := fun he => hother (he ▸ hname)
  simp [Std.ExtTreeMap.getElem?_insert, hne]

/-- The stores have the same heap and output, and the same variables but for some of them. -/
structure Store.Agrees (except : Name → Prop) (σ τ : Store) : Prop where
  locals : σ.ChangesOnly except τ
  heap : τ.heap = σ.heap
  output : τ.output = σ.output

/-- Stores that agree still do so after the same assignment. -/
theorem Store.Agrees.insert {except : Name → Prop} (h : σ.Agrees except τ) (name : Name)
    (v : Value) :
    Store.Agrees except { σ with locals := σ.locals.insert name v }
      { τ with locals := τ.locals.insert name v } := by
  refine ⟨fun other hother => ?_, h.heap, h.output⟩
  simp only [Std.ExtTreeMap.getElem?_insert]
  split
  · rfl
  · exact h.locals other hother

/-! ## Tables of functions -/

/-- Two tables have entries under the same names, and those are related. -/
def TablesMatch {α β : Type} (related : α → β → Prop) (table : Std.ExtTreeMap Name α)
    (table' : Std.ExtTreeMap Name β) : Prop :=
  ∀ name : Name, Option.Rel related table[name]? table'[name]?

section Tables

variable {α β : Type} {related : α → β → Prop} {table : Std.ExtTreeMap Name α}
  {table' : Std.ExtTreeMap Name β}

/-- Both tables have the same names. -/
theorem TablesMatch.contains (h : TablesMatch related table table') (name : Name) :
    table'.contains name = table.contains name := by
  have hname := h name
  rw [Std.ExtTreeMap.contains_eq_isSome_getElem?, Std.ExtTreeMap.contains_eq_isSome_getElem?]
  generalize table[name]? = found at hname ⊢
  generalize table'[name]? = found' at hname ⊢
  cases hname <;> rfl

/-- What is in the first is in the second. -/
theorem TablesMatch.find (h : TablesMatch related table table') {name : Name} {a : α}
    (ha : table[name]? = some a) : ∃ b, table'[name]? = some b ∧ related a b := by
  have hname := h name
  rw [ha] at hname
  generalize table'[name]? = found at hname ⊢
  cases hname with
  | some hrel => exact ⟨_, rfl, hrel⟩

/-- What is in the second is in the first. -/
theorem TablesMatch.findSource (h : TablesMatch related table table') {name : Name} {b : β}
    (hb : table'[name]? = some b) : ∃ a, table[name]? = some a ∧ related a b := by
  have hname := h name
  rw [hb] at hname
  generalize table[name]? = found at hname ⊢
  cases hname with
  | some hrel => exact ⟨_, rfl, hrel⟩

/-- What a table has after entries were added to it. -/
theorem getElem?_foldl_insert {nameOf : α → Name} {valueOf : α → β} {as : List α} {name : Name}
    {b : β} (h : (as.foldl (fun table a => table.insert (nameOf a) (valueOf a)) table')[name]? =
      some b) :
    table'[name]? = some b ∨ ∃ a ∈ as, nameOf a = name ∧ valueOf a = b := by
  induction as generalizing table' with
  | nil => exact .inl h
  | cons a as ih =>
    rcases ih h with hinsert | ⟨a', hmem, hname⟩
    · rw [Std.ExtTreeMap.getElem?_insert] at hinsert
      split at hinsert
      · rename_i he
        rw [Std.LawfulEqCmp.compare_eq_iff_eq] at he
        exact .inr ⟨a, List.mem_cons_self, he, Option.some.inj hinsert⟩
      · exact .inl hinsert
    · exact .inr ⟨a', List.mem_cons_of_mem _ hmem, hname⟩

/-- The names that a table has after entries were added to it. -/
theorem contains_foldl_insert (nameOf : α → Name) (valueOf : α → β) (as : List α) (name : Name) :
    (as.foldl (fun table a => table.insert (nameOf a) (valueOf a)) table').contains name =
      (table'.contains name || (as.map nameOf).contains name) := by
  induction as generalizing table' with
  | nil => simp
  | cons a as ih =>
    rw [List.foldl_cons, ih, Std.ExtTreeMap.contains_insert, List.map_cons, List.contains_cons]
    by_cases hname : nameOf a = name
    · simp [hname]
    · have hcompare : (compare (nameOf a) name == .eq) = false := by simpa using hname
      rw [hcompare, beq_eq_false_iff_ne.mpr (Ne.symm hname), Bool.false_or, Bool.false_or]

/-- Entries with the same names, one by one, make tables that match. -/
theorem tablesMatch_foldl {nameOf : α → Name} {nameOf' : β → Name} {as : List α} {bs : List β}
    (hname : ∀ a b, related a b → nameOf' b = nameOf a) (h : List.Forall₂ related as bs)
    (htables : TablesMatch related table table') :
    TablesMatch related (as.foldl (fun table a => table.insert (nameOf a) a) table)
      (bs.foldl (fun table b => table.insert (nameOf' b) b) table') := by
  induction h generalizing table table' with
  | nil => exact htables
  | @cons a b as bs hab _ ih =>
    refine ih fun name => ?_
    beta_reduce
    rw [hname a b hab]
    by_cases he : nameOf a = name
    · simpa [he] using Option.Rel.some hab
    · simpa [Std.ExtTreeMap.getElem?_insert, he] using htables name

end Tables

end Interpreter

end TupleLang
