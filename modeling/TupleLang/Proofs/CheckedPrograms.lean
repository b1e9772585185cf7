import TupleLang.Proofs.NormalForm
import TupleLang.Proofs.TypingRules

/-!
# What a check finds out

Consequences of the typing rules that the lowering stages rely on.  What is known about variables
only grows (`Typing.Checks.extended`), so an expression without statements of its own has its type
at every later point as well (`Typing.Checks.of_isSimple`).  A check learns nothing about names
that may not be bound (`Typing.Checks.unbindable`).

At the top level, functions have different names, and none of them may be called by a reserved
name (`Typing.signaturesAdded`).  A lowered program whose functions have the same signatures gives
them the same types (`Typing.foldlM_addSignature_congr`).
-/

namespace TupleLang

open Interpreter (Task TablesMatch functionTable)

namespace Typing

variable {context : Context}

/-! ## What a check adds -/

/-- Variables keep their types, and the names of functions stay what they are. -/
structure Extends (functions : Std.ExtTreeMap Name Ty) (Γ Γ' : VariableTypes) : Prop where
  keeps {name : Name} {ty : Ty} (h : Γ[name]? = some ty) : Γ'[name]? = some ty
  apart {name : Name} (h : functions.contains name = true) : Γ'[name]? = Γ[name]?

namespace Extends

variable {functions : Std.ExtTreeMap Name Ty} {Γ Γ' Γ'' : VariableTypes}

theorem refl (Γ : VariableTypes) : Extends functions Γ Γ :=
  ⟨id, fun _ => rfl⟩

theorem trans (h : Extends functions Γ Γ') (h' : Extends functions Γ' Γ'') :
    Extends functions Γ Γ'' :=
  ⟨fun hname => h'.keeps (h.keeps hname), fun hname => (h'.apart hname).trans (h.apart hname)⟩

/-- A new variable that is no function. -/
theorem insert {target : Name} (hnew : Γ[target]? = none)
    (hfunction : functions.contains target = false) (ty : Ty) :
    Extends functions Γ (Γ.insert target ty) := by
  constructor
  · intro name other hname
    have hne : target ≠ name := fun he => by rw [he, hname] at hnew; cases hnew
    simpa [Std.ExtTreeMap.getElem?_insert, hne] using hname
  · intro name hname
    have hne : target ≠ name := fun he => by rw [he, hname] at hfunction; cases hfunction
    simp [Std.ExtTreeMap.getElem?_insert, hne]

/-- A name has its meaning wherever more is known. -/
theorem lookup {name : Name} {ty : Ty} (h : Extends functions Γ Γ')
    (hname : (Γ[name]? <|> functions[name]?) = some ty) :
    (Γ'[name]? <|> functions[name]?) = some ty := by
  cases hknown : Γ[name]? with
  | some known =>
    rw [hknown] at hname
    rw [h.keeps hknown]
    exact hname
  | none =>
    rw [hknown] at hname
    have hfunction : functions[name]? = some ty := hname
    have hcontains : functions.contains name = true := by
      rw [Std.ExtTreeMap.contains_eq_isSome_getElem?, hfunction]
      rfl
    rw [h.apart hcontains, hknown]
    exact hname

end Extends

variable {Γ Γ' known Δ known' : VariableTypes} {name function : Name} {ss ss' : List Stmt}
  {lowered : Bool} {progress progress' : Progress} {fs : List Function} {task : Task}
  {verdict : Verdict} {s : Stmt} {e : Expr} {ty : Ty}
  {functions functions' : Std.ExtTreeMap Name Ty} {program : Program}
  {environment : TypeEnvironment} {parameters : List (Name × Ty)}

/-- A check keeps all types it knew, and never learns the type of a function's name. -/
theorem Checks.extended (h : Checks context task Γ verdict Γ') :
    Extends context.functions Γ Γ' := by
  induction h with
  | known | function | int | bool | global | allocate | exprsNil | blockNil | collect =>
    exact .refl _
  | subscript _ _ ih | primitive _ _ _ ih | tuple _ _ ih | assign _ _ _ _ ih | print _ _ ih
  | ret _ _ ih | setField _ _ _ ih => exact ih
  | shortCircuit _ _ _ ih ih' | call _ _ ih ih' | «begin» _ _ ih ih' | exprsCons _ _ ih ih'
  | whileDo _ _ ih ih' | blockCons _ _ ih ih' => exact ih.trans ih'
  | ifElse _ _ _ ihc ihp ihn => exact (ihc.trans ihp).trans ihn
  | assignNew _ hfunction _ hnew ih => exact ih.trans (.insert hnew hfunction _)

/-- A check learns nothing about names that may not be bound. -/
theorem Checks.unbindable (h : Checks context task Γ verdict Γ')
    (hname : mayBind context.lowered name = false) : Γ'[name]? = Γ[name]? := by
  induction h with
  | known | function | int | bool | global | allocate | exprsNil | blockNil | collect => rfl
  | subscript _ _ ih | primitive _ _ _ ih | tuple _ _ ih | assign _ _ _ _ ih | print _ _ ih
  | ret _ _ ih | setField _ _ _ ih => exact ih
  | shortCircuit _ _ _ ih ih' | call _ _ ih ih' | «begin» _ _ ih ih' | exprsCons _ _ ih ih'
  | whileDo _ _ ih ih' | blockCons _ _ ih ih' => exact ih'.trans ih
  | ifElse _ _ _ ihc ihp ihn => exact ihn.trans (ihp.trans ihc)
  | @assignNew _ _ target _ _ htarget _ _ _ ih =>
    have hne : target ≠ name := fun he => by rw [he, hname] at htarget; cases htarget
    simpa [Std.ExtTreeMap.getElem?_insert, hne] using ih

/-! ## Blocks -/

/-- The statements of two blocks. -/
theorem checks_append :
    Checks context (.block (ss ++ ss')) Γ .fine Γ' ↔
      ∃ Γ₁, Checks context (.block ss) Γ .fine Γ₁ ∧ Checks context (.block ss') Γ₁ .fine Γ' := by
  induction ss generalizing Γ with
  | nil =>
    refine ⟨fun h => ⟨Γ, .blockNil, h⟩, ?_⟩
    rintro ⟨Γ₁, hnil, h⟩
    cases hnil
    exact h
  | cons s ss ih =>
    constructor
    · intro h
      cases h with
      | blockCons hs hrest =>
        obtain ⟨Γ₁, hss, hss'⟩ := ih.mp hrest
        exact ⟨Γ₁, .blockCons hs hss, hss'⟩
    · rintro ⟨Γ₁, hss, hss'⟩
      cases hss with
      | blockCons hs hss => exact .blockCons hs (ih.mpr ⟨Γ₁, hss, hss'⟩)

/-- A block of one statement. -/
theorem checks_singleton :
    Checks context (.block [s]) Γ .fine Γ' ↔ Checks context (.stmt s) Γ .fine Γ' := by
  refine ⟨fun h => ?_, fun h => .blockCons h .blockNil⟩
  cases h with
  | blockCons hs hnil =>
    cases hnil
    exact hs

/-! ## Expressions without statements -/

/-- The context of the same program after lowering. -/
def Context.whenLowered (context : Context) : Context :=
  { context with lowered := true }

/-- An atom has its type wherever more is known. -/
theorem Checks.of_isAtomic (h : Checks context (.expr e) Γ (.ty ty) Γ') (he : e.isAtomic = true)
    (hΔ : Extends context.functions Γ Δ) :
    Γ' = Γ ∧ Checks context.whenLowered (.expr e) Δ (.ty ty) Δ := by
  cases h with
  | known hname => exact ⟨rfl, .known (hΔ.keeps hname)⟩
  | @function _ name _ hname hfunction =>
    have hcontains : context.functions.contains name = true := by
      rw [Std.ExtTreeMap.contains_eq_isSome_getElem?, hfunction]
      rfl
    exact ⟨rfl, .function ((hΔ.apart hcontains).trans hname) hfunction⟩
  | int value => exact ⟨rfl, .int value⟩
  | bool value => exact ⟨rfl, .bool value⟩
  | _ => cases he

/-- Atoms have their types wherever more is known. -/
theorem Checks.of_all_isAtomic {es : List Expr} {tys : List Ty}
    (h : Checks context (.exprs es) Γ (.tys tys) Γ') (hes : es.all Expr.isAtomic = true)
    (hΔ : Extends context.functions Γ Δ) :
    Γ' = Γ ∧ Checks context.whenLowered (.exprs es) Δ (.tys tys) Δ := by
  induction es generalizing tys with
  | nil =>
    cases h
    exact ⟨rfl, .exprsNil⟩
  | cons e es ih =>
    rw [List.all_cons, Bool.and_eq_true] at hes
    cases h with
    | exprsCons he hrest =>
      obtain ⟨rfl, he'⟩ := he.of_isAtomic hes.1 hΔ
      obtain ⟨rfl, hrest'⟩ := ih hrest hes.2
      exact ⟨rfl, .exprsCons he' hrest'⟩

/-- A flat expression without statements has its type wherever more is known, and teaches the
checker nothing. -/
theorem Checks.of_isSimple (h : Checks context (.expr e) Γ (.ty ty) Γ') (he : e.isSimple = true)
    (hΔ : Extends context.functions Γ Δ) :
    Γ' = Γ ∧ Checks context.whenLowered (.expr e) Δ (.ty ty) Δ := by
  rw [Expr.isSimple, Bool.and_eq_true] at he
  obtain ⟨hflat, hbegin⟩ := he
  cases h with
  | known hname => exact Checks.of_isAtomic (.known hname) rfl hΔ
  | function hname hfunction =>
    exact Checks.of_isAtomic (.function hname hfunction) rfl hΔ
  | int value => exact ⟨rfl, .int value⟩
  | bool value => exact ⟨rfl, .bool value⟩
  | subscript ht hfield =>
    rw [Expr.isFlat, List.all_cons, Bool.and_eq_true] at hflat
    obtain ⟨rfl, ht'⟩ := ht.of_isAtomic hflat.1 hΔ
    exact ⟨rfl, .subscript ht' hfield⟩
  | shortCircuit hoperator hl hr =>
    rw [Expr.isFlat, List.all_cons, List.all_cons, Bool.and_eq_true, Bool.and_eq_true] at hflat
    obtain ⟨rfl, hl'⟩ := hl.of_isAtomic hflat.1 hΔ
    obtain ⟨rfl, hr'⟩ := hr.of_isAtomic hflat.2.1 hΔ
    exact ⟨rfl, .shortCircuit hoperator hl' hr'⟩
  | primitive hstrict hs hty =>
    obtain ⟨rfl, hs'⟩ := hs.of_all_isAtomic hflat hΔ
    exact ⟨rfl, .primitive hstrict hs' hty⟩
  | call ht hs =>
    rw [Expr.isFlat, Bool.and_eq_true] at hflat
    obtain ⟨rfl, ht'⟩ := ht.of_isAtomic hflat.1 hΔ
    obtain ⟨rfl, hs'⟩ := hs.of_all_isAtomic hflat.2 hΔ
    exact ⟨rfl, .call ht' hs'⟩
  | tuple hs hsize =>
    obtain ⟨rfl, hs'⟩ := hs.of_all_isAtomic hflat hΔ
    exact ⟨rfl, .tuple hs' hsize⟩
  | «begin» _ _ => cases hbegin
  | global name => exact ⟨rfl, .global name⟩
  | allocate bytes fields => exact ⟨rfl, .allocate bytes fields⟩

/-! ## Functions -/

/-- Names of the program stay allowed. -/
theorem mayBind_whenLowered (h : mayBind lowered name = true) : mayBind true name = true := by
  unfold mayBind at h ⊢
  rw [Bool.and_eq_true] at h
  rw [h.1]
  rfl

/-- A definition never stands inside another statement. -/
theorem Checks.function?_eq_none (h : Checks context (.stmt s) Γ .fine Γ') :
    s.function? = none := by
  cases h <;> rfl

/-- Blocks that follow the rules define no functions. -/
theorem Checks.functions_eq_nil (h : Checks context (.block ss) Γ .fine Γ') :
    ss.filterMap Stmt.function? = [] := by
  induction ss generalizing Γ with
  | nil => rfl
  | cons s ss ih =>
    cases h with
    | blockCons hs hss => rw [List.filterMap_cons_none hs.function?_eq_none, ih hss]

/-- What holds of functions whose types were collected. -/
structure SignaturesAdded (lowered : Bool) (functions : Std.ExtTreeMap Name Ty)
    (fs : List Function) (functions' : Std.ExtTreeMap Name Ty) : Prop where
  bindable : ∀ f ∈ fs, mayBind lowered f.name = true
  new : ∀ f ∈ fs, functions.contains f.name = false
  nodup : (fs.map Function.name).Nodup
  source {name : Name} (h : functions'.contains name = true) :
    functions.contains name = true ∨ ∃ f ∈ fs, f.name = name

/-- What adding the signatures does. -/
theorem signaturesAdded (h : fs.foldlM (addSignature lowered) functions = .ok functions') :
    SignaturesAdded lowered functions fs functions' := by
  induction fs generalizing functions with
  | nil =>
    cases h
    exact ⟨List.forall_mem_nil _, List.forall_mem_nil _, List.nodup_nil, .inl⟩
  | cons f fs ih =>
    rw [List.foldlM_cons, Except.bind_eq_ok] at h
    obtain ⟨middle, hfirst, hrest⟩ := h
    obtain ⟨hname, hnew, -, rfl⟩ := addSignature_eq_ok.mp hfirst
    have hrest := ih hrest
    have hother : ∀ g ∈ fs, f.name ≠ g.name ∧ functions.contains g.name = false := by
      intro g hg
      have hg := hrest.new g hg
      rw [Std.ExtTreeMap.contains_insert, Bool.or_eq_false_iff] at hg
      exact ⟨by simpa using hg.1, hg.2⟩
    refine ⟨List.forall_mem_cons.mpr ⟨hname, hrest.bindable⟩,
      List.forall_mem_cons.mpr ⟨hnew, fun g hg => (hother g hg).2⟩, ?_, fun {name} hcontains => ?_⟩
    · refine List.nodup_cons.mpr ⟨fun hmem => ?_, hrest.nodup⟩
      obtain ⟨g, hg, he⟩ := List.mem_map.mp hmem
      exact (hother g hg).1 he.symm
    · rcases hrest.source hcontains with hinsert | ⟨g, hg, rfl⟩
      · rw [Std.ExtTreeMap.contains_insert, Bool.or_eq_true] at hinsert
        rcases hinsert with he | hcontains
        · exact .inr ⟨f, List.mem_cons_self, by simpa using he⟩
        · exact .inl hcontains
      · exact .inr ⟨g, List.mem_cons_of_mem _ hg, rfl⟩

/-- The names of functions may be bound. -/
theorem ProgramChecks.mayBind_of_contains (h : ProgramChecks lowered program environment)
    (hname : environment.functions.contains name = true) : mayBind lowered name = true := by
  have hadded := signaturesAdded h.functions
  rcases hadded.source hname with hempty | ⟨f, hf, rfl⟩
  · simp at hempty
  · exact hadded.bindable f hf

/-- The types that are collected are those of the functions, under the same names. -/
theorem tablesMatch_addSignature {types types' : Std.ExtTreeMap Name Ty}
    {table : Std.ExtTreeMap Name Function} (h : fs.foldlM (addSignature lowered) types = .ok types')
    (hmatch : TablesMatch (fun (f : Function) ty => ty = f.ty) table types) :
    TablesMatch (fun (f : Function) ty => ty = f.ty)
      (fs.foldl (fun table f => table.insert f.name f) table) types' := by
  induction fs generalizing types table with
  | nil =>
    cases h
    exact hmatch
  | cons f fs ih =>
    rw [List.foldlM_cons, Except.bind_eq_ok] at h
    obtain ⟨middle, hfirst, hrest⟩ := h
    obtain ⟨-, -, -, rfl⟩ := addSignature_eq_ok.mp hfirst
    refine ih hrest fun name => ?_
    by_cases he : f.name = name
    · simp [he]
    · simpa [Std.ExtTreeMap.getElem?_insert, he] using hmatch name

/-- The functions have the types that were checked. -/
theorem ProgramChecks.tablesMatch (h : ProgramChecks lowered program environment) :
    TablesMatch (fun (f : Function) ty => ty = f.ty) (functionTable program)
      environment.functions :=
  tablesMatch_addSignature h.functions fun _ => .none

/-- The functions have the same name, parameters and result. -/
structure SameSignature (f f' : Function) : Prop where
  name : f'.name = f.name
  parameters : f'.parameters = f.parameters
  output : f'.output = f.output

/-- Functions with the same signatures, one by one, have the same types, and what they are called
is no less allowed after lowering. -/
theorem foldlM_addSignature_congr {fs' : List Function} (hsame : List.Forall₂ SameSignature fs fs')
    (h : fs.foldlM (addSignature lowered) functions = .ok functions') :
    fs'.foldlM (addSignature true) functions = .ok functions' := by
  induction hsame generalizing functions with
  | nil => exact h
  | @cons f f' fs fs' hf _ ih =>
    rw [List.foldlM_cons, Except.bind_eq_ok] at h ⊢
    obtain ⟨middle, hfirst, hrest⟩ := h
    obtain ⟨hname, hnew, hsize, rfl⟩ := addSignature_eq_ok.mp hfirst
    have hty : f'.ty = f.ty := by rw [Function.ty, Function.ty, hf.parameters, hf.output]
    refine ⟨_, addSignature_eq_ok.mpr ?_, ih hrest⟩
    rw [hf.name, hty]
    exact ⟨mayBind_whenLowered hname, hnew, hsize, rfl⟩

/-- Parameters are no less allowed after lowering. -/
theorem foldlM_addParameter_whenLowered
    (h : parameters.foldlM (addParameter context function) known = .ok known') :
    parameters.foldlM (addParameter context.whenLowered function) known = .ok known' := by
  induction parameters generalizing known with
  | nil => exact h
  | cons parameter parameters ih =>
    rw [List.foldlM_cons, Except.bind_eq_ok] at h ⊢
    obtain ⟨middle, hfirst, hrest⟩ := h
    obtain ⟨hname, hfunction, hnew, rfl⟩ := addParameter_eq_ok.mp hfirst
    exact ⟨_, addParameter_eq_ok.mpr ⟨mayBind_whenLowered hname, hfunction, hnew, rfl⟩, ih hrest⟩

/-- Names that may not be bound are no parameters. -/
theorem unbindable_of_foldlM_addParameter
    (h : parameters.foldlM (addParameter context function) known = .ok known')
    (hname : mayBind context.lowered name = false) : known'[name]? = known[name]? := by
  induction parameters generalizing known with
  | nil =>
    cases h
    rfl
  | cons parameter parameters ih =>
    rw [List.foldlM_cons, Except.bind_eq_ok] at h
    obtain ⟨middle, hfirst, hrest⟩ := h
    obtain ⟨hparameter, -, -, rfl⟩ := addParameter_eq_ok.mp hfirst
    have hne : parameter.1 ≠ name := fun he => by rw [he, hname] at hparameter; cases hparameter
    rw [ih hrest]
    simp [Std.ExtTreeMap.getElem?_insert, hne]

/-! ## Statements at the top level -/

/-- Statements that define no functions are checked as a block. -/
theorem TopLevelChecks.of_block (h : Checks context (.block ss) progress.topLevel .fine Γ) :
    TopLevelChecks context ss progress { progress with topLevel := Γ } := by
  induction ss generalizing progress with
  | nil =>
    cases h
    exact .nil
  | cons s ss ih =>
    cases h with
    | @blockCons _ Γ₁ _ _ _ hs hss =>
      have hrest := @ih { progress with topLevel := Γ₁ } hss
      exact .stmt hs.function?_eq_none hs hrest

/-- Statements of two parts of a program. -/
theorem TopLevelChecks.append {progress₁ : Progress}
    (h : TopLevelChecks context ss progress progress₁)
    (h' : TopLevelChecks context ss' progress₁ progress') :
    TopLevelChecks context (ss ++ ss') progress progress' := by
  induction h with
  | nil => exact h'
  | define hdefines hfunction _ ih => exact .define hdefines hfunction (ih h')
  | stmt hplain hstatement _ ih => exact .stmt hplain hstatement (ih h')

/-- No function has a variable whose name may not be bound. -/
theorem FunctionChecks.unbindable {function : Function} (h : FunctionChecks context function known)
    (hname : mayBind context.lowered name = false) : known[name]? = none := by
  obtain ⟨hparameters, hbody⟩ := h
  rw [hbody.unbindable hname, unbindable_of_foldlM_addParameter hparameters hname]
  simp

section TopLevel

variable (h : TopLevelChecks context ss progress progress')
include h

/-- The variables of a function that is not defined again stay what they are. -/
theorem TopLevelChecks.tables_eq (hname : name ∉ (ss.filterMap Stmt.function?).map Function.name) :
    progress'.tables[name]? = progress.tables[name]? := by
  induction h with
  | nil => rfl
  | define hdefines _ _ ih =>
    rw [List.filterMap_cons_some hdefines, List.map_cons, List.mem_cons, not_or] at hname
    rw [ih hname.2]
    simp [Std.ExtTreeMap.getElem?_insert, Ne.symm hname.1]
  | stmt hplain _ _ ih =>
    rw [List.filterMap_cons_none hplain] at hname
    exact ih hname

/-- Names that must not be bound are not bound. -/
theorem TopLevelChecks.unbindable (hname : mayBind context.lowered name = false)
    (hbefore : ∀ (f : Name) (known : VariableTypes), progress.tables[f]? = some known →
      known[name]? = none) :
    ∀ (f : Name) (known : VariableTypes), progress'.tables[f]? = some known →
      known[name]? = none := by
  induction h with
  | nil => exact hbefore
  | @define progress _ _ _ function known _ hfunction _ ih =>
    refine ih fun f table htable => ?_
    rw [Std.ExtTreeMap.getElem?_insert] at htable
    split at htable
    · cases htable
      exact hfunction.unbindable hname
    · exact hbefore f table htable
  | stmt _ _ _ ih => exact ih hbefore

/-- Variables at the top level keep their types. -/
theorem TopLevelChecks.extended :
    Extends context.functions progress.topLevel progress'.topLevel := by
  induction h with
  | nil => exact .refl _
  | define _ _ _ ih => exact ih
  | stmt _ hstatement _ ih => exact hstatement.extended.trans ih

/-- The statements at the top level that define no function are checked as one block. -/
theorem TopLevelChecks.checks_filter :
    Checks context (.block (ss.filter (·.function?.isNone))) progress.topLevel .fine
      progress'.topLevel := by
  induction h with
  | nil => exact .blockNil
  | define hdefines _ _ ih =>
    rw [List.filter_cons_of_neg (by rw [hdefines]; exact nofun)]
    exact ih
  | stmt hplain hstatement _ ih =>
    rw [List.filter_cons_of_pos (by rw [hplain]; rfl)]
    exact .blockCons hstatement ih

/-- Each function at the top level follows the rules. -/
theorem TopLevelChecks.functionChecks :
    ∀ f ∈ ss.filterMap Stmt.function?, ∃ known, FunctionChecks context f known := by
  induction h with
  | nil => exact List.forall_mem_nil _
  | define hdefines hfunction _ ih =>
    rw [List.filterMap_cons_some hdefines]
    exact List.forall_mem_cons.mpr ⟨⟨_, hfunction⟩, ih⟩
  | stmt hplain _ _ ih =>
    rw [List.filterMap_cons_none hplain]
    exact ih

end TopLevel

section Environment

variable {environment : TypeEnvironment} {progress : Progress}

/-- The variables of a function. -/
theorem variablesOf?_of_mayBind
    (hlocals : environment.locals = progress.tables.insert Name.entryPoint progress.topLevel)
    {lowered : Bool} {name : Name} (hname : mayBind lowered name = true) :
    environment.variablesOf? name = progress.tables[name]? := by
  have hne : Name.entryPoint ≠ name := by
    rintro rfl
    cases hname
  rw [TypeEnvironment.variablesOf?, hlocals]
  simp [Std.ExtTreeMap.getElem?_insert, hne]

/-- The variables at the top level. -/
theorem variablesOf?_entryPoint
    (hlocals : environment.locals = progress.tables.insert Name.entryPoint progress.topLevel) :
    environment.variablesOf? Name.entryPoint = some progress.topLevel := by
  rw [TypeEnvironment.variablesOf?, hlocals]
  simp

end Environment

end Typing

end TupleLang
