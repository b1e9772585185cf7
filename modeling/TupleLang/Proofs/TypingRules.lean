import Mathlib.Data.List.Basic
import TupleLang.Proofs.Evaluation
import TupleLang.Proofs.Occurrence
import TupleLang.Proofs.Stateful
import TupleLang.Typing

/-!
# Typing rules

The checker is a computation; `Typing.Checks` states what it accepts as rules.  A rule relates a
task, the types of the variables known before it, what is found out about it, and the types known
after it.  `Typing.TopLevelChecks` and `Typing.ProgramChecks` are the rules for the statements of a
program and for a whole program.

The rules leave out the order in which the checker looks at things and the faults it reports; the
main statement is `Typing.checkProgram_eq_ok`: the checker accepts a program exactly when it follows
the rules.  Everything that is shown about accepted programs is an induction on the rules.
-/

namespace TupleLang

open Interpreter (Task)

/-- The type of the result of an operator whose operands have the given types, subscripts apart. -/
def Operator.resultType? : Operator → List Ty → Option Ty
  | .add, [.int, .int] | .sub, [.int, .int] | .mult, [.int, .int] | .neg, [.int] => some .int
  | .not, [.bool] | .and, [.bool, .bool] | .or, [.bool, .bool] => some .bool
  | .lt, [.int, .int] | .lte, [.int, .int] | .gt, [.int, .int] | .gte, [.int, .int] => some .bool
  | .eq, [lhs, rhs] | .ne, [lhs, rhs] => if lhs.isPrintable ∧ lhs = rhs then some .bool else none
  | _, _ => none

namespace Typing

/-- Whether a name may be bound, in a program as it is written or after lowering. -/
def mayBind (lowered : Bool) (name : Name) : Bool :=
  !Name.reserved.contains name && (lowered || !name.isGenerated)

/-- What a check finds out. -/
inductive Verdict where
  | ty (ty : Ty)
  | tys (tys : List Ty)
  | fine

/-- The typing rules.  What is known about variables before a check and after it stands on the two
sides of the verdict. -/
inductive Checks (context : Context) : Task → VariableTypes → Verdict → VariableTypes → Prop where
  | known {Γ : VariableTypes} {name : Name} {ty : Ty} (h : Γ[name]? = some ty) :
    Checks context (.expr (.var name)) Γ (.ty ty) Γ
  | function {Γ : VariableTypes} {name : Name} {ty : Ty} (h : Γ[name]? = none)
      (hfunction : context.functions[name]? = some ty) :
    Checks context (.expr (.var name)) Γ (.ty ty) Γ
  | int {Γ : VariableTypes} (value : Word) :
    Checks context (.expr (.const (.int value))) Γ (.ty .int) Γ
  | bool {Γ : VariableTypes} (value : Bool) :
    Checks context (.expr (.const (.bool value))) Γ (.ty .bool) Γ
  | subscript {Γ Γ₁ : VariableTypes} {tuple : Expr} {index : Word} {fields : List Ty} {ty : Ty}
      (ht : Checks context (.expr tuple) Γ (.ty (.tuple fields)) Γ₁)
      (hfield : index.toCount?.bind (fields[·]?) = some ty) :
    Checks context (.expr (.primitive .subscript [tuple, .const (.int index)])) Γ (.ty ty) Γ₁
  | shortCircuit {Γ Γ₁ Γ₂ : VariableTypes} {operator : Operator} {lhs rhs : Expr}
      (hoperator : operator.isShortCircuiting = true)
      (hl : Checks context (.expr lhs) Γ (.ty .bool) Γ₁)
      (hr : Checks context (.expr rhs) Γ₁ (.ty .bool) Γ₂) :
    Checks context (.expr (.primitive operator [lhs, rhs])) Γ (.ty .bool) Γ₂
  | primitive {Γ Γ₁ : VariableTypes} {operator : Operator} {operands : List Expr} {tys : List Ty}
      {ty : Ty} (hstrict : operator.isShortCircuiting = false)
      (hs : Checks context (.exprs operands) Γ (.tys tys) Γ₁)
      (hty : operator.resultType? tys = some ty) :
    Checks context (.expr (.primitive operator operands)) Γ (.ty ty) Γ₁
  | call {Γ Γ₁ Γ₂ : VariableTypes} {target : Expr} {arguments : List Expr} {tys : List Ty} {ty : Ty}
      (ht : Checks context (.expr target) Γ (.ty (.function tys ty)) Γ₁)
      (hs : Checks context (.exprs arguments) Γ₁ (.tys tys) Γ₂) :
    Checks context (.expr (.call target arguments)) Γ (.ty ty) Γ₂
  | tuple {Γ Γ₁ : VariableTypes} {fields : List Expr} {tys : List Ty}
      (hs : Checks context (.exprs fields) Γ (.tys tys) Γ₁)
      (hsize : (Ty.tuple tys).oversized? = none) :
    Checks context (.expr (.tuple fields)) Γ (.ty (.tuple tys)) Γ₁
  | begin {Γ Γ₁ Γ₂ : VariableTypes} {statements : List Stmt} {value : Expr} {ty : Ty}
      (hs : Checks context (.block statements) Γ .fine Γ₁)
      (hv : Checks context (.expr value) Γ₁ (.ty ty) Γ₂) :
    Checks context (.expr (.begin statements value)) Γ (.ty ty) Γ₂
  | global {Γ : VariableTypes} (name : Name) :
    Checks context (.expr (.global name)) Γ (.ty .int) Γ
  | allocate {Γ : VariableTypes} (bytes : Nat) (fields : List Ty) :
    Checks context (.expr (.allocate bytes (.tuple fields))) Γ (.ty (.tuple fields)) Γ
  | exprsNil {Γ : VariableTypes} : Checks context (.exprs []) Γ (.tys []) Γ
  | exprsCons {Γ Γ₁ Γ₂ : VariableTypes} {expression : Expr} {expressions : List Expr} {ty : Ty}
      {tys : List Ty} (he : Checks context (.expr expression) Γ (.ty ty) Γ₁)
      (hs : Checks context (.exprs expressions) Γ₁ (.tys tys) Γ₂) :
    Checks context (.exprs (expression :: expressions)) Γ (.tys (ty :: tys)) Γ₂
  | assignNew {Γ Γ₁ : VariableTypes} {target : Name} {value : Expr} {ty : Ty}
      (hname : mayBind context.lowered target = true)
      (hfunction : context.functions.contains target = false)
      (hv : Checks context (.expr value) Γ (.ty ty) Γ₁) (hnew : Γ₁[target]? = none) :
    Checks context (.stmt (.assign target value)) Γ .fine (Γ₁.insert target ty)
  | assign {Γ Γ₁ : VariableTypes} {target : Name} {value : Expr} {ty : Ty}
      (hname : mayBind context.lowered target = true)
      (hfunction : context.functions.contains target = false)
      (hv : Checks context (.expr value) Γ (.ty ty) Γ₁) (hold : Γ₁[target]? = some ty) :
    Checks context (.stmt (.assign target value)) Γ .fine Γ₁
  | print {Γ Γ₁ : VariableTypes} {value : Expr} {ty : Ty}
      (hv : Checks context (.expr value) Γ (.ty ty) Γ₁) (hprintable : ty.isPrintable = true) :
    Checks context (.stmt (.print value)) Γ .fine Γ₁
  | ifElse {Γ Γ₁ Γ₂ Γ₃ : VariableTypes} {condition : Expr} {positive negative : List Stmt}
      (hc : Checks context (.expr condition) Γ (.ty .bool) Γ₁)
      (hp : Checks context (.block positive) Γ₁ .fine Γ₂)
      (hn : Checks context (.block negative) Γ₂ .fine Γ₃) :
    Checks context (.stmt (.ifElse condition positive negative)) Γ .fine Γ₃
  | whileDo {Γ Γ₁ Γ₂ : VariableTypes} {condition : Expr} {body : List Stmt}
      (hc : Checks context (.expr condition) Γ (.ty .bool) Γ₁)
      (hb : Checks context (.block body) Γ₁ .fine Γ₂) :
    Checks context (.stmt (.whileDo condition body)) Γ .fine Γ₂
  | ret {Γ Γ₁ : VariableTypes} {value : Expr} {ty : Ty} (houtput : context.output? = some ty)
      (hv : Checks context (.expr value) Γ (.ty ty) Γ₁) :
    Checks context (.stmt (.ret value)) Γ .fine Γ₁
  | collect {Γ : VariableTypes} (bytes : Nat) : Checks context (.stmt (.collect bytes)) Γ .fine Γ
  | setField {Γ Γ₁ : VariableTypes} {tuple : Name} {index : Nat} {value : Expr} {fields : List Ty}
      {ty : Ty} (htuple : (Γ[tuple]? <|> context.functions[tuple]?) = some (.tuple fields))
      (hfield : (Word.ofCount index).toCount?.bind (fields[·]?) = some ty)
      (hv : Checks context (.expr value) Γ (.ty ty) Γ₁) :
    Checks context (.stmt (.setField tuple index value)) Γ .fine Γ₁
  | blockNil {Γ : VariableTypes} : Checks context (.block []) Γ .fine Γ
  | blockCons {Γ Γ₁ Γ₂ : VariableTypes} {statement : Stmt} {statements : List Stmt}
      (hs : Checks context (.stmt statement) Γ .fine Γ₁)
      (hr : Checks context (.block statements) Γ₁ .fine Γ₂) :
    Checks context (.block (statement :: statements)) Γ .fine Γ₂

/-! ## The checker follows the rules -/

variable {site : Site} {ty expected : Ty} {types : List Ty} {operator : Operator}
  {Γ Γ' : VariableTypes} {lowered : Bool}

/-- Names that may be bound. -/
theorem bindingName_eq_ok {name : Name} :
    bindingName lowered name site = .ok () ↔ mayBind lowered name = true := by
  unfold bindingName mayBind
  cases Name.reserved.contains name <;> cases lowered <;> cases name.isGenerated <;> simp [fault]

/-- Only the expected type is accepted. -/
theorem expect_eq_ok {actual : Ty} : expect expected actual site = .ok () ↔ expected = actual := by
  unfold expect
  split
  · rename_i h
    exact ⟨fun _ => h, fun _ => rfl⟩
  · rename_i h
    exact ⟨nofun, fun he => absurd he h⟩

/-- Fields exist in tuple types, at indices in range. -/
theorem fieldType_eq_ok {field : Ty} {index : Word} :
    fieldType ty index site = .ok field ↔
      ∃ fields, ty = .tuple fields ∧ index.toCount?.bind (fields[·]?) = some field := by
  cases ty with
  | tuple fields =>
    unfold fieldType
    cases h : index.toCount?.bind (fields[·]?) with
    | none => simp [h, fault]
    | some found => simp [h]
  | _ => simp [fieldType, fault]

/-- A type is represented if no tuple in it is too long. -/
theorem representable_eq_ok : representable ty site = .ok () ↔ ty.oversized? = none := by
  unfold representable
  cases ty.oversized? <;> simp [fault]

/-- All types of a list are expected to be the same one. -/
theorem forM_expect_eq_ok :
    types.forM (expect expected · site) = .ok () ↔ ∀ ty ∈ types, ty = expected := by
  induction types with
  | nil => exact ⟨fun _ => List.forall_mem_nil _, fun _ => rfl⟩
  | cons ty types ih =>
    change (expect expected ty site >>= fun _ => types.forM (expect expected · site)) = .ok () ↔ _
    rw [Except.bind_eq_ok, List.forall_mem_cons, ← ih]
    refine ⟨fun ⟨_, hty, hrest⟩ => ⟨(expect_eq_ok.mp hty).symm, hrest⟩, fun ⟨hty, hrest⟩ => ?_⟩
    exact ⟨(), expect_eq_ok.mpr hty.symm, hrest⟩

/-- Operators that expect all their operands to have one type. -/
theorem forM_expect_then_eq_ok {result : Ty} :
    (do types.forM (expect expected · site); return result : Except CompileError Ty) = .ok ty ↔
      (∀ actual ∈ types, actual = expected) ∧ result = ty := by
  rw [Except.bind_eq_ok, ← forM_expect_eq_ok]
  refine ⟨fun ⟨_, hall, hty⟩ => ⟨hall, ?_⟩, fun ⟨hall, hty⟩ => ⟨(), hall, by rw [hty]; rfl⟩⟩
  cases hty
  rfl

/-- The result of an operator on as many operands as it takes. -/
theorem resultType_eq_ok (hlength : types.length = operator.arity) :
    resultType operator types site = .ok ty ↔ operator.resultType? types = some ty := by
  cases operator with
  | neg | not =>
    obtain ⟨a, rfl⟩ := List.length_eq_one_iff.mp hlength
    rw [resultType, forM_expect_then_eq_ok]
    cases a <;> simp [Operator.resultType?]
  | eq | ne =>
    obtain ⟨a, b, rfl⟩ := List.length_eq_two.mp hlength
    cases hprintable : a.isPrintable with
    | false =>
      simp [resultType, Operator.resultType?, hprintable, fault, bind, Except.bind]
    | true =>
      rcases eq_or_ne a b with rfl | hab
      · simp [resultType, Operator.resultType?, hprintable, expect, bind, Except.bind, pure,
          Except.pure]
      · simp [resultType, Operator.resultType?, hprintable, expect, fault, hab, bind, Except.bind]
  | subscript =>
    obtain ⟨a, b, rfl⟩ := List.length_eq_two.mp hlength
    simp [resultType, fault, Operator.resultType?]
  | _ =>
    obtain ⟨a, b, rfl⟩ := List.length_eq_two.mp hlength
    rw [resultType, forM_expect_then_eq_ok]
    cases a <;> cases b <;> simp [Operator.resultType?]

/-- An operator that may skip its right operand takes two truth values and gives one. -/
theorem resultType?_shortCircuit (hoperator : operator.isShortCircuiting = true)
    (h : operator.resultType? types = some ty) : types = [.bool, .bool] ∧ ty = .bool := by
  unfold Operator.resultType? at h
  split at h <;> first
    | exact ⟨rfl, (Option.some.inj h).symm⟩
    | exact absurd hoperator Bool.false_ne_true
    | cases h

/-- Only so many operands have a result. -/
theorem length_of_resultType? (h : operator.resultType? types = some ty) :
    types.length = operator.arity := by
  unfold Operator.resultType? at h
  split at h <;> first | rfl | cases h

open Stateful

/-- What the checker returns for a task. -/
def Sound (context : Context) : Task → Prop
  | .expr e => ∀ Γ ty Γ', e.infer context Γ = .ok (ty, Γ') → Checks context (.expr e) Γ (.ty ty) Γ'
  | .exprs es => ∀ Γ tys Γ', Expr.inferList context es Γ = .ok (tys, Γ') →
    Checks context (.exprs es) Γ (.tys tys) Γ'
  | .stmt s => ∀ Γ Γ', s.check context Γ = .ok ((), Γ') → Checks context (.stmt s) Γ .fine Γ'
  | .block ss => ∀ Γ Γ', Stmt.checkBlock context ss Γ = .ok ((), Γ') →
    Checks context (.block ss) Γ .fine Γ'
  | .turn _ _ => True

variable {context : Context} {es : List Expr} {ss : List Stmt} {function : Function}
  {known : VariableTypes}

attribute [local simp] Expr.infer Expr.inferList Expr.checkArguments Stmt.check Stmt.checkBlock

/-- The rules hold of all expressions of a list. -/
theorem sound_exprs (h : ∀ e ∈ es, Sound context (.expr e)) : Sound context (.exprs es) := by
  induction es with
  | nil =>
    intro Γ tys Γ' h
    cases h
    exact .exprsNil
  | cons e es ih =>
    obtain ⟨he, hes⟩ := List.forall_mem_cons.mp h
    intro Γ tys Γ' h
    rw [Expr.inferList, bind₂_eq_ok] at h
    obtain ⟨ty, Γ₁, rest, hty, hrest, rfl⟩ := h
    exact .exprsCons (he _ _ _ hty) (ih hes _ _ _ hrest)

/-- The rules hold of all statements of a block. -/
theorem sound_block (h : ∀ s ∈ ss, Sound context (.stmt s)) : Sound context (.block ss) := by
  induction ss with
  | nil =>
    intro Γ Γ' h
    cases h
    exact .blockNil
  | cons s ss ih =>
    obtain ⟨hs, hss⟩ := List.forall_mem_cons.mp h
    intro Γ Γ' h
    rw [Stmt.checkBlock, bind_eq_ok] at h
    obtain ⟨⟨⟩, Γ₁, hfirst, hrest⟩ := h
    exact .blockCons (hs _ _ hfirst) (ih hss _ _ hrest)

/-- There is a type for each expression. -/
theorem length_inferList {tys : List Ty} (h : Expr.inferList context es Γ = .ok (tys, Γ')) :
    tys.length = es.length := by
  induction es generalizing tys Γ with
  | nil =>
    cases h
    rfl
  | cons e es ih =>
    rw [Expr.inferList, bind₂_eq_ok] at h
    obtain ⟨ty, Γ₁, rest, -, hrest, rfl⟩ := h
    rw [List.length_cons, List.length_cons, ih hrest]

/-- Checking arguments one by one comes to the same as finding their types first. -/
theorem checkArguments_eq_ok {parameters : List Ty} {arguments : List Expr}
    (hlength : parameters.length = arguments.length) :
    Expr.checkArguments context site parameters arguments Γ = .ok ((), Γ') ↔
      Expr.inferList context arguments Γ = .ok (parameters, Γ') := by
  induction arguments generalizing parameters Γ with
  | nil =>
    cases List.length_eq_zero_iff.mp hlength
    simp [pure_eq_ok]
  | cons argument arguments ih =>
    obtain ⟨parameter, parameters, rfl⟩ := List.exists_cons_of_length_eq_add_one hlength
    rw [List.length_cons, List.length_cons, Nat.add_right_cancel_iff] at hlength
    simp only [Expr.checkArguments, Expr.inferList, bind_eq_ok, liftM_eq_ok]
    constructor
    · rintro ⟨ty, Γ₁, hty, ⟨⟩, Γ₂, ⟨hexpect, rfl⟩, hrest⟩
      rw [← expect_eq_ok.mp hexpect] at hty
      exact ⟨parameter, _, hty, parameters, Γ', (ih hlength).mp hrest, rfl⟩
    · rintro ⟨ty, Γ₁, hty, rest, Γ₂, hrest, h⟩
      cases h
      exact ⟨parameter, Γ₁, hty, (), Γ₁, ⟨expect_eq_ok.mpr rfl, rfl⟩, (ih hlength).mpr hrest⟩

/-- A subscript with a constant index is checked in a way of its own. -/
theorem infer_subscript {tuple : Expr} {index : Expr}
    (h : (Expr.primitive .subscript [tuple, index]).infer context Γ = .ok (ty, Γ')) :
    ∃ value fields, index = .const (.int value) ∧
      tuple.infer context Γ = .ok (.tuple fields, Γ') ∧
      value.toCount?.bind (fields[·]?) = some ty := by
  rw [Expr.infer, bind_eq_ok] at h
  obtain ⟨tupleTy, Γ₁, htuple, h⟩ := h
  split at h
  · rename_i value
    rw [liftM_eq_ok] at h
    obtain ⟨hfield, rfl⟩ := h
    rw [fieldType_eq_ok] at hfield
    obtain ⟨fields, rfl, hfield⟩ := hfield
    exact ⟨value, fields, rfl, htuple, hfield⟩
  · cases h

/-- The other operators look at the types of their operands. -/
theorem infer_primitive {operands : List Expr}
    (hpair : operator = .subscript → ∀ tuple index, operands ≠ [tuple, index])
    (h : (Expr.primitive operator operands).infer context Γ = .ok (ty, Γ')) :
    ∃ tys, Expr.inferList context operands Γ = .ok (tys, Γ') ∧
      operator.resultType? tys = some ty := by
  rw [Expr.infer] at h
  · dsimp only at h
    split at h
    · cases h
    · rename_i hlength
      rw [bind_eq_ok] at h
      obtain ⟨tys, Γ₁, htys, h⟩ := h
      rw [liftM_eq_ok] at h
      obtain ⟨hty, rfl⟩ := h
      have hcount : tys.length = operator.arity :=
        (length_inferList htys).trans (Decidable.not_not.mp hlength)
      exact ⟨tys, htys, (resultType_eq_ok hcount).mp hty⟩
  · exact fun tuple index ho hoperands => hpair ho tuple index hoperands

/-- What the checker returns follows the rules. -/
theorem sound : TreeInduction (fun e => Sound context (.expr e)) (fun s => Sound context (.stmt s))
    where
  var name := by
    intro Γ ty Γ' h
    rw [Expr.infer, bind_of_ok (get_eq_ok Γ)] at h
    cases hvariable : Γ[name]? with
    | some found =>
      simp only [hvariable] at h
      cases h
      exact .known hvariable
    | none =>
      cases hfunction : context.functions[name]? with
      | some found =>
        simp only [hvariable, hfunction] at h
        cases h
        exact .function hvariable hfunction
      | none =>
        simp only [hvariable, hfunction] at h
        cases h
  const value := by
    intro Γ ty Γ' h
    cases value with
    | int value =>
      cases h
      exact .int value
    | bool value =>
      cases h
      exact .bool value
  primitive operator operands ih := by
    intro Γ ty Γ' h
    by_cases hpair : operator = .subscript ∧ ∃ tuple index, operands = [tuple, index]
    · obtain ⟨rfl, tuple, index, rfl⟩ := hpair
      obtain ⟨value, fields, rfl, htuple, hfield⟩ := infer_subscript h
      exact .subscript (ih tuple (by simp) _ _ _ htuple) hfield
    · obtain ⟨tys, htys, hty⟩ := infer_primitive
        (fun ho tuple index hoperands => hpair ⟨ho, tuple, index, hoperands⟩) h
      cases hstrict : operator.isShortCircuiting with
      | false => exact .primitive hstrict (sound_exprs ih _ _ _ htys) hty
      | true =>
        obtain ⟨rfl, rfl⟩ := resultType?_shortCircuit hstrict hty
        obtain ⟨lhs, rhs, rfl⟩ := List.length_eq_two.mp (length_inferList htys).symm
        have hpair := sound_exprs ih _ _ _ htys
        cases hpair with
        | exprsCons hl hrest =>
          cases hrest with
          | exprsCons hr hnil =>
            cases hnil
            exact .shortCircuit hstrict hl hr
  call target arguments iht iha := by
    intro Γ ty Γ' h
    rw [Expr.infer, bind_eq_ok] at h
    obtain ⟨targetTy, Γ₁, htarget, h⟩ := h
    cases targetTy with
    | function parameters output =>
      dsimp only at h
      split at h
      · cases h
      · rename_i hlength
        rw [bind_pure_eq_ok] at h
        obtain ⟨⟨⟩, harguments, rfl⟩ := h
        rw [checkArguments_eq_ok (Decidable.not_not.mp hlength)] at harguments
        exact .call (iht _ _ _ htarget) (sound_exprs iha _ _ _ harguments)
    | _ => cases h
  tuple fields ih := by
    intro Γ ty Γ' h
    rw [Expr.infer, bind_eq_ok] at h
    obtain ⟨tys, Γ₁, htys, h⟩ := h
    rw [bind_eq_ok] at h
    obtain ⟨⟨⟩, Γ₂, hsize, h⟩ := h
    rw [liftM_eq_ok, representable_eq_ok] at hsize
    obtain ⟨hsize, rfl⟩ := hsize
    cases h
    exact .tuple (sound_exprs ih _ _ _ htys) hsize
  begin statements value ihs ihv := by
    intro Γ ty Γ' h
    rw [Expr.infer, bind_eq_ok] at h
    obtain ⟨⟨⟩, Γ₁, hstatements, hvalue⟩ := h
    exact .begin (sound_block ihs _ _ hstatements) (ihv _ _ _ hvalue)
  global name := by
    intro Γ ty Γ' h
    cases h
    exact .global name
  allocate bytes ty := by
    intro Γ ty' Γ' h
    cases ty with
    | tuple fields =>
      cases h
      exact .allocate bytes fields
    | _ => cases h
  assign target value ih := by
    intro Γ Γ' h
    rw [Stmt.check] at h
    dsimp only at h
    rw [bind_eq_ok] at h
    obtain ⟨⟨⟩, Γ₁, hname, h⟩ := h
    rw [liftM_eq_ok, bindingName_eq_ok] at hname
    obtain ⟨hname, rfl⟩ := hname
    cases hfunction : context.functions.contains target with
    | true =>
      simp only [hfunction] at h
      cases h
    | false =>
      simp only [hfunction] at h
      rw [if_neg Bool.false_ne_true, bind_eq_ok] at h
      obtain ⟨ty, Γ₂, hty, h⟩ := h
      rw [bind_of_ok (get_eq_ok Γ₂)] at h
      cases hknown : Γ₂[target]? with
      | none =>
        simp only [hknown] at h
        cases h
        exact .assignNew hname hfunction (ih _ _ _ hty) hknown
      | some existing =>
        simp only [hknown] at h
        rw [liftM_eq_ok, expect_eq_ok] at h
        obtain ⟨rfl, rfl⟩ := h
        exact .assign hname hfunction (ih _ _ _ hty) hknown
  print value ih := by
    intro Γ Γ' h
    rw [Stmt.check, bind_eq_ok] at h
    obtain ⟨ty, Γ₁, hty, h⟩ := h
    cases hprintable : ty.isPrintable with
    | false =>
      simp only [hprintable] at h
      cases h
    | true =>
      simp only [hprintable] at h
      cases h
      exact .print (ih _ _ _ hty) hprintable
  ifElse condition positive negative ihc ihp ihn := by
    intro Γ Γ' h
    rw [Stmt.check, bind_eq_ok] at h
    obtain ⟨ty, Γ₁, hty, h⟩ := h
    rw [bind_eq_ok] at h
    obtain ⟨⟨⟩, Γ₂, hexpect, h⟩ := h
    rw [liftM_eq_ok, expect_eq_ok] at hexpect
    obtain ⟨rfl, rfl⟩ := hexpect
    rw [bind_eq_ok] at h
    obtain ⟨⟨⟩, Γ₃, hpositive, hnegative⟩ := h
    exact .ifElse (ihc _ _ _ hty) (sound_block ihp _ _ hpositive) (sound_block ihn _ _ hnegative)
  whileDo condition body ihc ihb := by
    intro Γ Γ' h
    rw [Stmt.check, bind_eq_ok] at h
    obtain ⟨ty, Γ₁, hty, h⟩ := h
    rw [bind_eq_ok] at h
    obtain ⟨⟨⟩, Γ₂, hexpect, hbody⟩ := h
    rw [liftM_eq_ok, expect_eq_ok] at hexpect
    obtain ⟨rfl, rfl⟩ := hexpect
    exact .whileDo (ihc _ _ _ hty) (sound_block ihb _ _ hbody)
  ret value ih := by
    intro Γ Γ' h
    rw [Stmt.check] at h
    cases houtput : context.output? with
    | none =>
      simp only [houtput] at h
      cases h
    | some output =>
      simp only [houtput, bind_eq_ok] at h
      obtain ⟨ty, Γ₁, hty, h⟩ := h
      rw [liftM_eq_ok, expect_eq_ok] at h
      obtain ⟨rfl, rfl⟩ := h
      exact .ret houtput (ih _ _ _ hty)
  define name parameters output body _ := nofun
  collect bytes := by
    intro Γ Γ' h
    cases h
    exact .collect bytes
  setField tuple index value ih := by
    intro Γ Γ' h
    rw [Stmt.check] at h
    rw [bind_of_ok (get_eq_ok Γ)] at h
    cases htuple : (Γ[tuple]? <|> context.functions[tuple]?) with
    | none =>
      simp only [htuple] at h
      cases h
    | some ty =>
      simp only [htuple, bind_eq_ok] at h
      obtain ⟨field, Γ₁, hfield, actual, Γ₂, hvalue, h⟩ := h
      rw [liftM_eq_ok, fieldType_eq_ok] at hfield
      obtain ⟨⟨fields, rfl, hfield⟩, rfl⟩ := hfield
      rw [liftM_eq_ok, expect_eq_ok] at h
      obtain ⟨rfl, rfl⟩ := h
      exact .setField htuple hfield (ih _ _ _ hvalue)

/-- What follows the rules is what the checker returns. -/
def Complete (context : Context) : Task → VariableTypes → Verdict → VariableTypes → Prop
  | .expr e, Γ, .ty ty, Γ' => e.infer context Γ = .ok (ty, Γ')
  | .exprs es, Γ, .tys tys, Γ' => Expr.inferList context es Γ = .ok (tys, Γ')
  | .stmt s, Γ, .fine, Γ' => s.check context Γ = .ok ((), Γ')
  | .block ss, Γ, .fine, Γ' => Stmt.checkBlock context ss Γ = .ok ((), Γ')
  | _, _, _, _ => True

/-- What follows the rules is accepted. -/
theorem Checks.complete {task : Task} {verdict : Verdict} (h : Checks context task Γ verdict Γ') :
    Complete context task Γ verdict Γ' := by
  induction h with
  | @known Γ name ty hname =>
    rw [Complete, Expr.infer, bind_of_ok (get_eq_ok Γ)]
    simp only [hname]
    rfl
  | @function Γ name ty hname hfunction =>
    rw [Complete, Expr.infer, bind_of_ok (get_eq_ok Γ)]
    simp only [hname, hfunction]
    rfl
  | int value => rfl
  | bool value => rfl
  | @subscript Γ Γ₁ tuple index fields ty _ hfield ih =>
    rw [Complete, Expr.infer, bind_of_ok ih]
    exact liftM_of_ok (fieldType_eq_ok.mpr ⟨fields, rfl, hfield⟩) Γ₁
  | @shortCircuit Γ Γ₁ Γ₂ operator lhs rhs hoperator _ _ ihl ihr =>
    have hoperands : Expr.inferList context [lhs, rhs] Γ = .ok ([.bool, .bool], Γ₂) := by
      rw [Expr.inferList, bind_of_ok ihl, Expr.inferList, bind_of_ok (bind_of_ok ihr)]
      rfl
    cases operator with
    | and | or =>
      rw [Complete, Expr.infer]
      · exact bind_of_ok hoperands
      · exact nofun
    | _ => cases hoperator
  | @primitive Γ Γ₁ operator operands tys ty _ _ hty ih =>
    have hcount := length_of_resultType? hty
    have hlength : operands.length = operator.arity := (length_inferList ih).symm.trans hcount
    rw [Complete, Expr.infer]
    · dsimp only
      rw [if_neg (Decidable.not_not.mpr hlength), bind_of_ok ih]
      exact liftM_of_ok ((resultType_eq_ok hcount).mpr hty) Γ₁
    · rintro tuple index rfl rfl
      simp [Operator.resultType?] at hty
  | @call Γ Γ₁ Γ₂ target arguments tys ty _ _ iht ihs =>
    have hlength := length_inferList ihs
    rw [Complete, Expr.infer, bind_of_ok iht]
    dsimp only
    rw [if_neg (Decidable.not_not.mpr hlength),
      bind_of_ok ((checkArguments_eq_ok hlength).mpr ihs)]
    rfl
  | tuple _ hsize ih =>
    rw [Complete, Expr.infer, bind_of_ok ih,
      bind_of_ok (liftM_of_ok (representable_eq_ok.mpr hsize) _)]
    rfl
  | «begin» _ _ ihs ihv =>
    rw [Complete, Expr.infer, bind_of_ok ihs]
    exact ihv
  | global name => rfl
  | allocate bytes fields => rfl
  | exprsNil => rfl
  | exprsCons _ _ ihe ihs =>
    rw [Complete, Expr.inferList, bind_of_ok ihe, bind_of_ok ihs]
    rfl
  | assignNew hname hfunction _ hnew ih =>
    rw [Complete, Stmt.check]
    dsimp only
    rw [bind_of_ok (liftM_of_ok (bindingName_eq_ok.mpr hname) _)]
    simp only [hfunction]
    rw [if_neg Bool.false_ne_true, bind_of_ok ih, bind_of_ok (get_eq_ok _)]
    simp only [hnew]
    rfl
  | assign hname hfunction _ hold ih =>
    rw [Complete, Stmt.check]
    dsimp only
    rw [bind_of_ok (liftM_of_ok (bindingName_eq_ok.mpr hname) _)]
    simp only [hfunction]
    rw [if_neg Bool.false_ne_true, bind_of_ok ih, bind_of_ok (get_eq_ok _)]
    simp only [hold]
    exact liftM_of_ok (expect_eq_ok.mpr rfl) _
  | print _ hprintable ih =>
    rw [Complete, Stmt.check, bind_of_ok ih]
    simp only [hprintable]
    rfl
  | ifElse _ _ _ ihc ihp ihn =>
    rw [Complete, Stmt.check, bind_of_ok ihc, bind_of_ok (liftM_of_ok (expect_eq_ok.mpr rfl) _),
      bind_of_ok ihp]
    exact ihn
  | whileDo _ _ ihc ihb =>
    rw [Complete, Stmt.check, bind_of_ok ihc, bind_of_ok (liftM_of_ok (expect_eq_ok.mpr rfl) _)]
    exact ihb
  | ret houtput _ ih =>
    rw [Complete, Stmt.check]
    simp only [houtput]
    rw [bind_of_ok ih]
    exact liftM_of_ok (expect_eq_ok.mpr rfl) _
  | collect bytes => rfl
  | @setField Γ Γ₁ tuple index value fields ty htuple hfield _ ih =>
    rw [Complete, Stmt.check]
    rw [bind_of_ok (get_eq_ok _)]
    simp only [htuple]
    rw [bind_of_ok (liftM_of_ok (fieldType_eq_ok.mpr ⟨fields, rfl, hfield⟩) _), bind_of_ok ih]
    exact liftM_of_ok (expect_eq_ok.mpr rfl) _
  | blockNil => rfl
  | blockCons _ _ ihs ihr =>
    rw [Complete, Stmt.checkBlock, bind_of_ok ihs]
    exact ihr

/-- A check of a block succeeds exactly when it follows the rules. -/
theorem checkBlock_eq_ok :
    Stmt.checkBlock context ss Γ = .ok ((), Γ') ↔ Checks context (.block ss) Γ .fine Γ' :=
  ⟨sound_block (sound.stmts ss) Γ Γ', Checks.complete⟩

/-- A check of a statement succeeds exactly when it follows the rules. -/
theorem check_eq_ok {s : Stmt} :
    s.check context Γ = .ok ((), Γ') ↔ Checks context (.stmt s) Γ .fine Γ' :=
  ⟨sound.stmt s Γ Γ', Checks.complete⟩

/-! ## Programs -/

/-- Signatures that are accepted. -/
theorem addSignature_eq_ok {functions functions' : Std.ExtTreeMap Name Ty} :
    addSignature lowered functions function = .ok functions' ↔
      mayBind lowered function.name = true ∧ functions.contains function.name = false ∧
        function.ty.oversized? = none ∧
        functions' = functions.insert function.name function.ty := by
  unfold addSignature
  dsimp only
  rw [Except.bind_eq_ok]
  constructor
  · rintro ⟨⟨⟩, hname, h⟩
    refine ⟨bindingName_eq_ok.mp hname, ?_⟩
    cases hnew : functions.contains function.name with
    | true =>
      rw [hnew] at h
      cases h
    | false =>
      rw [hnew, if_neg Bool.false_ne_true, Except.bind_eq_ok] at h
      obtain ⟨⟨⟩, hsize, h⟩ := h
      cases h
      exact ⟨rfl, representable_eq_ok.mp hsize, rfl⟩
  · rintro ⟨hname, hnew, hsize, rfl⟩
    refine ⟨(), bindingName_eq_ok.mpr hname, ?_⟩
    rw [hnew, if_neg Bool.false_ne_true, Except.bind_eq_ok]
    exact ⟨(), representable_eq_ok.mpr hsize, rfl⟩

/-- Parameters that are accepted. -/
theorem addParameter_eq_ok {function parameter : Name} {known' : VariableTypes} :
    addParameter context function known (parameter, ty) = .ok known' ↔
      mayBind context.lowered parameter = true ∧ context.functions.contains parameter = false ∧
        known.contains parameter = false ∧ known' = known.insert parameter ty := by
  unfold addParameter
  dsimp only
  rw [Except.bind_eq_ok]
  constructor
  · rintro ⟨⟨⟩, hname, h⟩
    refine ⟨bindingName_eq_ok.mp hname, ?_⟩
    cases hfunction : context.functions.contains parameter with
    | true =>
      rw [hfunction] at h
      cases h
    | false =>
      cases hnew : known.contains parameter with
      | true =>
        rw [hfunction, if_neg Bool.false_ne_true, hnew] at h
        cases h
      | false =>
        rw [hfunction, if_neg Bool.false_ne_true, hnew, if_neg Bool.false_ne_true] at h
        cases h
        exact ⟨rfl, rfl, rfl⟩
  · rintro ⟨hname, hfunction, hnew, rfl⟩
    refine ⟨(), bindingName_eq_ok.mpr hname, ?_⟩
    rw [hfunction, if_neg Bool.false_ne_true, hnew, if_neg Bool.false_ne_true]
    rfl

/-- The context of the body of a function. -/
def Context.inside (context : Context) (function : Function) : Context :=
  { context with output? := some function.output }

/-- The rules for a function and its variables: the body is checked with the parameters known. -/
inductive FunctionChecks (context : Context) (function : Function) (known : VariableTypes) : Prop
    where
  | intro {parameters : VariableTypes}
      (hparameters :
        function.parameters.foldlM (addParameter context function.name) ∅ = .ok parameters)
      (hbody : Checks (context.inside function) (.block function.body) parameters .fine known)

/-- Functions that are accepted. -/
theorem checkFunction_eq_ok :
    checkFunction context function = .ok known ↔ FunctionChecks context function known := by
  unfold checkFunction
  rw [Except.bind_eq_ok]
  constructor
  · rintro ⟨parameters, hparameters, h⟩
    rw [Except.bind_eq_ok] at h
    obtain ⟨⟨⟨⟩, known'⟩, hbody, h⟩ := h
    cases h
    exact ⟨hparameters, checkBlock_eq_ok.mp hbody⟩
  · rintro ⟨hparameters, hbody⟩
    refine ⟨_, hparameters, ?_⟩
    rw [Except.bind_eq_ok]
    exact ⟨((), known), checkBlock_eq_ok.mpr hbody, rfl⟩

/-- The rules for the statements of a program, in which functions may be defined. -/
inductive TopLevelChecks (context : Context) : List Stmt → Progress → Progress → Prop where
  | nil {progress : Progress} : TopLevelChecks context [] progress progress
  | define {progress progress' : Progress} {statement : Stmt} {statements : List Stmt}
      {function : Function} {known : VariableTypes} (hdefines : statement.function? = some function)
      (hfunction : FunctionChecks context function known)
      (hrest : TopLevelChecks context statements
        { progress with tables := progress.tables.insert function.name known } progress') :
    TopLevelChecks context (statement :: statements) progress progress'
  | stmt {progress progress' : Progress} {statement : Stmt} {statements : List Stmt}
      {known : VariableTypes} (hplain : statement.function? = none)
      (hstatement : Checks context (.stmt statement) progress.topLevel .fine known)
      (hrest : TopLevelChecks context statements { progress with topLevel := known } progress') :
    TopLevelChecks context (statement :: statements) progress progress'

/-- Statements at the top level that are accepted. -/
theorem foldlM_checkTopLevel_eq_ok {statements : List Stmt} {progress progress' : Progress} :
    statements.foldlM (checkTopLevel context) progress = .ok progress' ↔
      TopLevelChecks context statements progress progress' := by
  induction statements generalizing progress with
  | nil =>
    constructor
    · intro h
      cases h
      exact .nil
    · intro h
      cases h
      rfl
  | cons statement statements ih =>
    rw [List.foldlM_cons, Except.bind_eq_ok]
    constructor
    · rintro ⟨middle, hfirst, hrest⟩
      unfold checkTopLevel at hfirst
      split at hfirst
      · rename_i function hdefines
        rw [Except.bind_eq_ok] at hfirst
        obtain ⟨known, hknown, h⟩ := hfirst
        cases h
        exact .define hdefines (checkFunction_eq_ok.mp hknown) (ih.mp hrest)
      · rename_i hplain
        rw [Except.bind_eq_ok] at hfirst
        obtain ⟨⟨⟨⟩, known⟩, hknown, h⟩ := hfirst
        cases h
        exact .stmt hplain (check_eq_ok.mp hknown) (ih.mp hrest)
    · intro h
      cases h with
      | @define _ _ _ _ function known hdefines hfunction hrest =>
        refine ⟨_, ?_, ih.mpr hrest⟩
        unfold checkTopLevel
        rw [hdefines]
        dsimp only
        rw [Except.bind_eq_ok]
        exact ⟨known, checkFunction_eq_ok.mpr hfunction, rfl⟩
      | @stmt _ _ _ _ known hplain hstatement hrest =>
        refine ⟨_, ?_, ih.mpr hrest⟩
        unfold checkTopLevel
        rw [hplain]
        dsimp only
        rw [Except.bind_eq_ok]
        exact ⟨((), known), check_eq_ok.mpr hstatement, rfl⟩

/-- The rules for a program and what is found out about it. -/
structure ProgramChecks (lowered : Bool) (program : Program) (environment : TypeEnvironment) : Prop
    where
  /-- The functions have the types that their signatures give. -/
  functions : program.functions.foldlM (addSignature lowered) ∅ = .ok environment.functions
  /-- The variables have the types that the statements give. -/
  statements : ∃ progress,
    TopLevelChecks ⟨lowered, environment.functions, none⟩ program.statements {} progress ∧
    environment.locals = progress.tables.insert Name.entryPoint progress.topLevel

/-- A program is accepted exactly when it follows the rules. -/
theorem checkProgram_eq_ok {program : Program} {environment : TypeEnvironment} :
    checkProgram lowered program = .ok environment ↔ ProgramChecks lowered program environment := by
  unfold checkProgram
  rw [Except.bind_eq_ok]
  constructor
  · rintro ⟨functions, hfunctions, h⟩
    rw [Except.bind_eq_ok] at h
    obtain ⟨progress, hprogress, h⟩ := h
    cases h
    exact ⟨hfunctions, progress, foldlM_checkTopLevel_eq_ok.mp hprogress, rfl⟩
  · rintro ⟨hfunctions, progress, hprogress, hlocals⟩
    refine ⟨environment.functions, hfunctions, ?_⟩
    rw [Except.bind_eq_ok]
    refine ⟨progress, foldlM_checkTopLevel_eq_ok.mpr hprogress, ?_⟩
    rw [← hlocals]
    rfl

end Typing

end TupleLang
