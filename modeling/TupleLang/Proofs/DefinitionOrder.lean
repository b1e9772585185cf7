import Mathlib.Data.List.Nodup
import Mathlib.Data.List.Perm.Basic
import TupleLang.Proofs.CheckedPrograms

/-!
# The order of definitions

Where functions are defined is of no consequence for the checker.  It reads a program twice: first
all signatures, and then the statements, among which the definitions may stand anywhere.

The second reading is two independent ones (`Typing.topLevelChecks_iff`).  The statements that
define nothing are checked as a block, which knows the variables of the entry point, and each
definition is checked alone, knowing only the signatures.  In both readings two definitions can
change places (`Typing.addSignature_comm`, `Typing.addTable_comm`): their names differ, since no
name is defined twice in an accepted program, so what is recorded about one does not touch the
other.  Hence all definitions of a program can be put in any order and anywhere among its
statements (`Program.typeCheck_of_rearranged`).
-/

namespace TupleLang

variable {α : Type} {program program' : Program}

/-- If steps may change places two at a time, and succeed as before, a list of them may be permuted.
-/
theorem Except.foldlM_eq_ok_of_perm {ε β : Type} {step : β → α → Except ε β} {as as' : List α}
    (hperm : as.Perm as')
    (hcomm : ∀ a ∈ as, ∀ a' ∈ as, ∀ b r, (step b a >>= (step · a')) = .ok r →
      (step b a' >>= (step · a)) = .ok r) {b r : β} (h : as.foldlM step b = .ok r) :
    as'.foldlM step b = .ok r := by
  induction hperm generalizing b with
  | nil => exact h
  | cons a _ ih =>
    rw [List.foldlM_cons, bind_eq_ok] at h ⊢
    obtain ⟨middle, hfirst, hrest⟩ := h
    exact ⟨middle, hfirst, ih (fun x hx y hy => hcomm x (List.mem_cons_of_mem _ hx) y
      (List.mem_cons_of_mem _ hy)) hrest⟩
  | swap a a' as =>
    rw [List.foldlM_cons, bind_eq_ok] at h
    obtain ⟨first, hfirst, h⟩ := h
    rw [List.foldlM_cons, bind_eq_ok] at h
    obtain ⟨second, hsecond, hrest⟩ := h
    have ha : a ∈ a' :: a :: as := List.mem_cons_of_mem _ List.mem_cons_self
    have hswapped := hcomm a' List.mem_cons_self a ha b second
      (bind_eq_ok.mpr ⟨first, hfirst, hsecond⟩)
    obtain ⟨other, hother, hsecond⟩ := bind_eq_ok.mp hswapped
    rw [List.foldlM_cons, bind_eq_ok]
    refine ⟨other, hother, ?_⟩
    rw [List.foldlM_cons, bind_eq_ok]
    exact ⟨second, hsecond, hrest⟩
  | trans hfirst _ ih ih' =>
    refine ih' (fun x hx y hy => ?_) (ih hcomm h)
    exact hcomm x (hfirst.mem_iff.mpr hx) y (hfirst.mem_iff.mpr hy)

/-- Entries under different names can be added to a table in either order. -/
theorem insert_comm_of_ne (table : Std.ExtTreeMap Name α) {name name' : Name} (hne : name ≠ name')
    (entry entry' : α) :
    (table.insert name entry).insert name' entry' =
      (table.insert name' entry').insert name entry := by
  refine Std.ExtTreeMap.ext_getElem? fun other => ?_
  simp only [Std.ExtTreeMap.getElem?_insert, Std.LawfulEqCmp.compare_eq_iff_eq]
  by_cases h : name = other
  · simp [← h, hne.symm]
  · simp [h]

namespace Typing

variable {context : Context} {lowered : Bool} {tables tables' : Std.ExtTreeMap Name VariableTypes}
  {functions functions' : Std.ExtTreeMap Name Ty} {f g : Function} {fs fs' : List Function}

/-! ## Signatures -/

/-- The signatures of two functions can be collected in either order. -/
theorem addSignature_comm
    (h : (addSignature lowered functions f >>= (addSignature lowered · g)) = .ok functions') :
    (addSignature lowered functions g >>= (addSignature lowered · f)) = .ok functions' := by
  rw [Except.bind_eq_ok] at h ⊢
  obtain ⟨middle, hf, hg⟩ := h
  obtain ⟨hfname, hfnew, hfsize, rfl⟩ := addSignature_eq_ok.mp hf
  obtain ⟨hgname, hgnew, hgsize, rfl⟩ := addSignature_eq_ok.mp hg
  -- the second name was new after the first one was added, so the two differ
  rw [Std.ExtTreeMap.contains_insert, Bool.or_eq_false_iff] at hgnew
  have hne : f.name ≠ g.name := by simpa using hgnew.1
  have hfnew' : (functions.insert g.name g.ty).contains f.name = false := by
    rw [Std.ExtTreeMap.contains_insert, hfnew, Bool.or_false]
    simpa using hne.symm
  refine ⟨_, addSignature_eq_ok.mpr ⟨hgname, hgnew.2, hgsize, rfl⟩, addSignature_eq_ok.mpr ?_⟩
  exact ⟨hfname, hfnew', hfsize, insert_comm_of_ne functions hne f.ty g.ty⟩

/-- The order of signatures does not matter. -/
theorem foldlM_addSignature_of_perm (hperm : fs.Perm fs')
    (h : fs.foldlM (addSignature lowered) functions = .ok functions') :
    fs'.foldlM (addSignature lowered) functions = .ok functions' := by
  refine Except.foldlM_eq_ok_of_perm hperm ?_ h
  intro f _ g _ before after
  exact addSignature_comm

/-! ## Definitions -/

/-- Checks one more function, and adds its variables to the tables. -/
def addTable (context : Context) (tables : Std.ExtTreeMap Name VariableTypes)
    (function : Function) : Except CompileError (Std.ExtTreeMap Name VariableTypes) := do
  let known ← checkFunction context function
  return tables.insert function.name known

/-- What adding a function gives. -/
theorem addTable_eq_ok {function : Function} :
    addTable context tables function = .ok tables' ↔
      ∃ known, FunctionChecks context function known ∧
        tables.insert function.name known = tables' := by
  rw [addTable, Except.bind_eq_ok]
  constructor
  · rintro ⟨known, hknown, h⟩
    cases h
    exact ⟨known, checkFunction_eq_ok.mp hknown, rfl⟩
  · rintro ⟨known, hknown, rfl⟩
    exact ⟨known, checkFunction_eq_ok.mpr hknown, rfl⟩

/-- Functions with different names can be checked in either order. -/
theorem addTable_comm (hne : f.name ≠ g.name)
    (h : (addTable context tables f >>= (addTable context · g)) = .ok tables') :
    (addTable context tables g >>= (addTable context · f)) = .ok tables' := by
  rw [Except.bind_eq_ok] at h ⊢
  obtain ⟨middle, hf, hg⟩ := h
  obtain ⟨known, hknown, rfl⟩ := addTable_eq_ok.mp hf
  obtain ⟨known', hknown', rfl⟩ := addTable_eq_ok.mp hg
  refine ⟨_, addTable_eq_ok.mpr ⟨known', hknown', rfl⟩, addTable_eq_ok.mpr ⟨known, hknown, ?_⟩⟩
  exact insert_comm_of_ne tables hne.symm known' known

/-- The order of functions does not matter. -/
theorem foldlM_addTable_of_perm (hperm : fs.Perm fs') (hnodup : (fs.map Function.name).Nodup)
    (h : fs.foldlM (addTable context) tables = .ok tables') :
    fs'.foldlM (addTable context) tables = .ok tables' := by
  refine Except.foldlM_eq_ok_of_perm hperm (fun f hf g hg b r hfg => ?_) h
  by_cases hname : f.name = g.name
  · obtain rfl : f = g := List.inj_on_of_nodup_map hnodup hf hg hname
    exact hfg
  · exact addTable_comm hname hfg

/-! ## Statements and definitions apart -/

/-- The statements of a program follow the rules exactly if those that define nothing do so as a
block, and each definition does so alone. -/
theorem topLevelChecks_iff {ss : List Stmt} {progress progress' : Progress} :
    TopLevelChecks context ss progress progress' ↔
      Checks context (.block (ss.filter (·.function?.isNone))) progress.topLevel .fine
        progress'.topLevel ∧
      (ss.filterMap Stmt.function?).foldlM (addTable context) progress.tables =
        .ok progress'.tables := by
  constructor
  · intro h
    refine ⟨h.checks_filter, ?_⟩
    induction h with
    | nil => rfl
    | define hdefines hfunction _ ih =>
      rw [List.filterMap_cons_some hdefines, List.foldlM_cons, Except.bind_eq_ok]
      exact ⟨_, addTable_eq_ok.mpr ⟨_, hfunction, rfl⟩, ih⟩
    | stmt hplain _ _ ih =>
      rw [List.filterMap_cons_none hplain]
      exact ih
  · rintro ⟨hblock, hfunctions⟩
    induction ss generalizing progress with
    | nil =>
      obtain ⟨tables, topLevel⟩ := progress
      obtain ⟨tables', topLevel'⟩ := progress'
      cases hblock
      cases hfunctions
      exact .nil
    | cons statement statements ih =>
      cases hfunction : statement.function? with
      | some function =>
        rw [List.filter_cons_of_neg (by simp [hfunction])] at hblock
        rw [List.filterMap_cons_some hfunction, List.foldlM_cons, Except.bind_eq_ok] at hfunctions
        obtain ⟨tables, hfirst, hrest⟩ := hfunctions
        obtain ⟨known, hknown, rfl⟩ := addTable_eq_ok.mp hfirst
        exact .define hfunction hknown (ih hblock hrest)
      | none =>
        rw [List.filter_cons_of_pos (by simp [hfunction])] at hblock
        rw [List.filterMap_cons_none hfunction] at hfunctions
        cases hblock with
        | blockCons hs hrest => exact .stmt hfunction hs (ih hrest hfunctions)

end Typing

open Typing

/-- The two programs have the same statements in the same order, and the same definitions of
functions, in any order and anywhere among the statements. -/
structure Program.Rearranged (program program' : Program) : Prop where
  statements : program.statements.filter (·.function?.isNone) =
    program'.statements.filter (·.function?.isNone)
  functions : program.functions.Perm program'.functions

theorem Program.Rearranged.symm (h : program.Rearranged program') : program'.Rearranged program :=
  ⟨h.statements.symm, h.functions.symm⟩

/-- A rearranged program follows the rules with the same result. -/
theorem Typing.ProgramChecks.of_rearranged {lowered : Bool} (h : program.Rearranged program')
    {environment : TypeEnvironment} (hchecks : ProgramChecks lowered program environment) :
    ProgramChecks lowered program' environment := by
  obtain ⟨progress, hprogress, hlocals⟩ := hchecks.statements
  obtain ⟨hblock, htables⟩ := topLevelChecks_iff.mp hprogress
  refine ⟨foldlM_addSignature_of_perm h.functions hchecks.functions, progress, ?_, hlocals⟩
  refine topLevelChecks_iff.mpr ⟨h.statements ▸ hblock, ?_⟩
  exact foldlM_addTable_of_perm h.functions (signaturesAdded hchecks.functions).nodup htables

/-- Type checking does not depend on where functions are defined: of two programs that differ in
this only, one is accepted exactly if the other one is, and with the same result: the same types of
functions, and the same variables of each function. -/
theorem Program.typeCheck_of_rearranged {program program' : Program}
    (h : program.Rearranged program') (environment : TypeEnvironment) :
    program.typeCheck = .ok environment ↔ program'.typeCheck = .ok environment := by
  rw [Program.typeCheck, Program.typeCheck, checkProgram_eq_ok, checkProgram_eq_ok]
  exact ⟨.of_rearranged h, .of_rearranged h.symm⟩

/-- Two functions that call each other, defined around the statement that calls one of them. -/
def Program.parity : Program := ⟨[
  .define "even" [("n", .int)] .bool [
    .ifElse (.primitive .eq [.var "n", .int 0]) [.ret (.bool true)] [],
    .ret (.call (.var "odd") [.primitive .sub [.var "n", .int 1]])],
  .assign "answer" (.call (.var "even") [.int 10]),
  .define "odd" [("n", .int)] .bool [
    .ifElse (.primitive .eq [.var "n", .int 0]) [.ret (.bool false)] [],
    .ret (.call (.var "even") [.primitive .sub [.var "n", .int 1]])],
  .print (.var "answer")]⟩

/-- The statements of `Program.parity` with both definitions after them, in the other order. -/
def Program.parityLast : Program := ⟨[
  .assign "answer" (.call (.var "even") [.int 10]),
  .print (.var "answer"),
  .define "odd" [("n", .int)] .bool [
    .ifElse (.primitive .eq [.var "n", .int 0]) [.ret (.bool false)] [],
    .ret (.call (.var "even") [.primitive .sub [.var "n", .int 1]])],
  .define "even" [("n", .int)] .bool [
    .ifElse (.primitive .eq [.var "n", .int 0]) [.ret (.bool true)] [],
    .ret (.call (.var "odd") [.primitive .sub [.var "n", .int 1]])]]⟩

/-- Both forms of `Program.parity` are accepted, with the same variables. -/
theorem Program.typeCheck_of_rearranged_parity :
    Program.parity.Rearranged Program.parityLast ∧
    ∃ environment, Program.parity.typeCheck = .ok environment ∧
      Program.parityLast.typeCheck = .ok environment ∧
      environment.isFunction "odd" = true ∧
      (environment.variablesOf? Name.entryPoint).bind (·["answer"]?) = some .bool := by
  have hrearranged : Program.parity.Rearranged Program.parityLast := ⟨rfl, .swap _ _ _⟩
  have htypes : (Program.parity.typeCheck.toOption.any fun environment =>
      environment.isFunction "odd" = true ∧
      (environment.variablesOf? Name.entryPoint).bind (·["answer"]?) = some .bool) = true := by
    decide +kernel
  obtain ⟨environment, hresult, htypes⟩ := Except.exists_ok_of_any htypes
  exact ⟨hrearranged, environment, hresult,
    (Program.typeCheck_of_rearranged hrearranged environment).mp hresult,
    of_decide_eq_true htypes⟩

end TupleLang
