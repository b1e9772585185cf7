import TupleLang.Proofs.CarriedTypes

/-!
# Flattening keeps types

A program that is accepted as it is written can be flattened, and what comes out follows the typing
rules with the same types for its variables (`Typing.ProgramChecks.flatten`).

The proof is an induction on the rules.  An expression becomes statements and a value
(`Typing.ValueTyped`); the types that the statements add are those of the names they take, so the
value of an operand that was flattened earlier still has its type after the statements of a later
one.  The operators that may skip their right operand become conditionals whose two branches assign
the same name; it gets its type in the branch that is checked first (`Typing.checks_choice`).
-/

namespace TupleLang

open Interpreter (Task)
open Stateful

namespace Typing

/-- When the supply has handed out `hi` names, the statements of a flattened expression lead from
the types `Δ` to types that carry `Γ'`, and its value has a type after them.  At the end the supply
has handed out `hi'` names. -/
inductive ValueTyped (context : Context) (lo hi hi' : Nat) (Γ' Δ : VariableTypes) (ty : Ty)
    (flattened : Flattened) : Prop where
  | intro {Δ' : VariableTypes}
      (hbindings : Checks context.whenLowered (.block flattened.bindings) Δ .fine Δ')
      (hadvances : Advances lo hi hi' Γ' Δ Δ')
      (hvalue : Checks context.whenLowered (.expr flattened.value) Δ' (.ty ty) Δ')

/-- A stage turns an expression that takes the types `Γ` to the types `Γ'` into statements that do
the same, and a value of the same type after them. -/
def KeepsValue (context : Context) (lo : Nat) (stage : Lowering Flattened) (Γ : VariableTypes)
    (ty : Ty) (Γ' : VariableTypes) : Prop :=
  ∀ s Δ, Carries lo s.issued Γ Δ → ∃ flattened s', stage s = .ok (flattened, s') ∧
    ValueTyped context lo s.issued s'.issued Γ' Δ ty flattened

/-- What flattening does to a task that follows the rules. -/
def FlattensTyped (context : Context) (lo : Nat) :
    Task → VariableTypes → Verdict → VariableTypes → Prop
  | .expr e, Γ, .ty ty, Γ' => ∀ atomic, KeepsValue context lo (e.flatten atomic) Γ ty Γ'
  | .exprs es, Γ, .tys tys, Γ' =>
    ∀ s Δ, Carries lo s.issued Γ Δ → ∃ bindings atoms s' Δ',
      Expr.flattenAll es s = .ok ((bindings, atoms), s') ∧
      Checks context.whenLowered (.block bindings) Δ .fine Δ' ∧
      Advances lo s.issued s'.issued Γ' Δ Δ' ∧
      Checks context.whenLowered (.exprs atoms) Δ' (.tys tys) Δ'
  | .stmt st, Γ, .fine, Γ' => Keeps context lo st.flatten Γ Γ'
  | .block ss, Γ, .fine, Γ' => Keeps context lo (Stmt.flattenBlock ss) Γ Γ'
  | _, _, _, _ => True

variable {context : Context} {lo : Nat}

namespace ValueTyped

variable {hi hi' : Nat} {Γ' Δ : VariableTypes} {ty : Ty} {flattened : Flattened} {s : NameSupply}

section

variable (h : ValueTyped context lo hi s.issued Γ' Δ ty flattened) (hapart : NamesApart context lo)

include h hapart

/-- Binding the value to the next name of the supply. -/
theorem bound : ValueTyped context lo hi (s.issued + 1) Γ' Δ ty (flattened.bound s) := by
  obtain ⟨hbindings, hadvances, hvalue⟩ := h
  have hcarries := hadvances.carries
  refine ⟨checks_append.mpr ⟨_, hbindings, checks_singleton.mpr
    (hcarries.checks_assign hapart "tmp" hvalue)⟩, hadvances.trans (.bind hcarries "tmp" ty),
    .known ?_⟩
  simp [Flattened.nextName]

/-- Settled values have the type. -/
theorem settle (atomic : Bool) :
    ∃ settled s', flattened.settle atomic s = .ok (settled, s') ∧
      ValueTyped context lo hi s'.issued Γ' Δ ty settled := by
  unfold Flattened.settle
  split
  · exact ⟨_, _, Flattened.bind_eq _ _, h.bound hapart⟩
  · exact ⟨_, _, rfl, h⟩

/-- So have tests. -/
theorem asTest :
    ∃ test s', flattened.asTest s = .ok (test, s') ∧
      ValueTyped context lo hi s'.issued Γ' Δ ty test := by
  unfold Flattened.asTest
  split
  · exact ⟨_, _, rfl, h⟩
  · exact ⟨_, _, Flattened.bind_eq _ _, h.bound hapart⟩

end

/-- An expression that needs no statements. -/
theorem leaf {s : NameSupply} {value : Expr} (hΔ : Carries lo s.issued Γ' Δ)
    (hvalue : Checks context.whenLowered (.expr value) Δ (.ty ty) Δ) :
    ValueTyped context lo s.issued s.issued Γ' Δ ty ⟨[], value⟩ :=
  ⟨.blockNil, .refl hΔ, hvalue⟩

/-- The condition of a loop. -/
theorem checks_asLoopCondition {test : Flattened}
    (h : ValueTyped context lo hi hi' Γ' Δ ty test) :
    ∃ Δ', Checks context.whenLowered (.expr test.asLoopCondition) Δ (.ty ty) Δ' ∧
      Advances lo hi hi' Γ' Δ Δ' := by
  obtain ⟨hbindings, hadvances, hvalue⟩ := h
  refine ⟨_, ?_, hadvances⟩
  unfold Flattened.asLoopCondition
  split
  · rename_i hempty
    rw [List.isEmpty_iff.mp hempty] at hbindings
    cases hbindings
    exact hvalue
  · exact .begin hbindings hvalue

end ValueTyped

/-- The conditional that an operator becomes whose right operand is no atom gives its result the
type of truth values, in whichever branch is checked first. -/
theorem checks_choice {operator : Operator} {test : Expr} {rhs : Flattened} {s s' : NameSupply}
    {Γ₁ Γ₂ Δ : VariableTypes} (hapart : NamesApart context lo)
    (hΔ : Carries lo s.issued Γ₁ Δ)
    (htest : Checks context.whenLowered (.expr test) Δ (.ty .bool) Δ)
    (hrhs : ∀ Δ, Carries lo (s.issued + 1) Γ₁ Δ →
      ValueTyped context lo (s.issued + 1) s'.issued Γ₂ Δ .bool rhs) :
    ∃ Δ', Checks context.whenLowered
        (.stmt (Flattened.choice operator test (Flattened.nextName s) rhs)) Δ .fine Δ' ∧
      Advances lo s.issued s'.issued Γ₂ Δ Δ' ∧ Δ'[Flattened.nextName s]? = some .bool := by
  have hname : mayBind true (Flattened.nextName s) = true := mayBind_nameAt _ _
  have hfunction := hapart.nameAt hΔ.le "tmp"
  have hnewer : Name.IsNewer s.issued (Flattened.nextName s) :=
    NameSupply.isNewer_nameAt.mpr (Nat.lt_succ_self _)
  have htaken : ¬Name.IsNewer (s.issued + 1) (Flattened.nextName s) := fun h =>
    Nat.lt_irrefl _ (NameSupply.isNewer_nameAt.mp h)
  by_cases hand : operator = .and
  · have hlater : Advances lo s.issued (s.issued + 1) Γ₁ Δ Δ :=
      ⟨Nat.le_succ _, hΔ.mono (Nat.le_succ _), fun _ _ => rfl⟩
    obtain ⟨hundecided, hadvances, hvalue⟩ := hrhs Δ hlater.carries
    rename_i Δ₁
    have hnew : Δ₁[Flattened.nextName s]? = none :=
      (hadvances.kept (hnewer.mono hΔ.le) htaken).trans (hΔ.fresh hnewer)
    have hresult : (Δ₁.insert (Flattened.nextName s) .bool)[Flattened.nextName s]? =
        some .bool := by simp
    have hpositive := checks_append.mpr ⟨_, hundecided, checks_singleton.mpr
      (.assignNew hname hfunction hvalue hnew)⟩
    refine ⟨Δ₁.insert (Flattened.nextName s) .bool, ?_, (hlater.trans hadvances).insert hΔ.le hnewer
      (fun h => htaken (h.mono hadvances.le)) .bool, hresult⟩
    rw [Flattened.choice, if_pos hand]
    exact .ifElse htest hpositive (checks_singleton.mpr
      (.assign hname hfunction (.bool _) hresult))
  · have hbind := Advances.bind hΔ "tmp" .bool
    obtain ⟨hundecided, hadvances, hvalue⟩ := hrhs _ hbind.carries
    rename_i Δ₁
    have hresult : Δ₁[Flattened.nextName s]? = some .bool := by
      refine (hadvances.kept (hnewer.mono hΔ.le) htaken).trans ?_
      simp [Flattened.nextName]
    have hnegative := checks_append.mpr ⟨_, hundecided, checks_singleton.mpr
      (.assign hname hfunction hvalue hresult)⟩
    refine ⟨Δ₁, ?_, hbind.trans hadvances, hresult⟩
    rw [Flattened.choice, if_neg hand]
    exact .ifElse htest (checks_singleton.mpr
      (.assignNew hname hfunction (.bool _) (hΔ.next "tmp"))) hnegative

namespace KeepsValue

variable {Γ Γ₁ Γ₂ Γ' : VariableTypes} {ty : Ty}

theorem settle {stage : Lowering Flattened} (h : KeepsValue context lo stage Γ ty Γ')
    (hapart : NamesApart context lo) (atomic : Bool) :
    KeepsValue context lo (do let flattened ← stage; flattened.settle atomic) Γ ty Γ' := by
  intro s Δ hΔ
  obtain ⟨flattened, s₁, hflattened, htyped⟩ := h s Δ hΔ
  rw [bind_of_ok hflattened]
  exact htyped.settle hapart atomic

/-- An operator that may skip its right operand. -/
theorem shortCircuit {operator : Operator} {rhs : Expr} {left right : Lowering Flattened}
    (hapart : NamesApart context lo) (hoperator : operator.isShortCircuiting = true)
    (hr : Checks context (.expr rhs) Γ₁ (.ty .bool) Γ₂)
    (ihl : KeepsValue context lo left Γ .bool Γ₁) (ihr : KeepsValue context lo right Γ₁ .bool Γ₂) :
    KeepsValue context lo (Flattened.shortCircuit operator rhs left right) Γ .bool Γ₂ := by
  intro s Δ hΔ
  obtain ⟨lhs, s₁, hleft, hbindings, hadvances, hvalue⟩ := ihl s Δ hΔ
  rename_i Δ₁
  rw [Flattened.shortCircuit, bind_of_ok hleft]
  cases hatomic : rhs.isAtomic with
  | true =>
    obtain ⟨rfl, hrhs⟩ := hr.of_isAtomic hatomic (hadvances.carries.extended hapart)
    exact ⟨_, s₁, rfl, hbindings, hadvances, .shortCircuit hoperator hvalue hrhs⟩
  | false =>
    obtain ⟨rhs', s₂, hright, -⟩ := ihr ⟨s₁.issued + 1⟩ Δ₁ (hadvances.carries.mono (Nat.le_succ _))
    have hrhs : ∀ Δ, Carries lo (s₁.issued + 1) Γ₁ Δ →
        ValueTyped context lo (s₁.issued + 1) s₂.issued Γ₂ Δ .bool rhs' := by
      intro Δ hΔ
      obtain ⟨rhs'', s₂', hright', htyped⟩ := ihr ⟨s₁.issued + 1⟩ Δ hΔ
      rw [hright] at hright'
      cases hright'
      exact htyped
    obtain ⟨Δ₂, hchoice, hadvances', hresult⟩ :=
      @checks_choice _ _ operator _ _ _ _ _ _ _ hapart hadvances.carries hvalue hrhs
    refine ⟨⟨lhs.bindings ++ [Flattened.choice operator lhs.value (Flattened.nextName s₁) rhs'],
      .var (Flattened.nextName s₁)⟩, s₂, ?_,
      checks_append.mpr ⟨_, hbindings, checks_singleton.mpr hchoice⟩,
      hadvances.trans hadvances', .known hresult⟩
    rw [if_neg Bool.false_ne_true, bind_of_ok (Lowering.fresh_eq_ok _ _), bind_of_ok hright]
    rfl

end KeepsValue

/-- Assignments keep types. -/
theorem keeps_assign {target : Name} {value : Expr} {Γ Γ₁ Γ' : VariableTypes} {ty : Ty}
    (hwritten : context.lowered = false) (hname : mayBind context.lowered target = true)
    (hfunction : context.functions.contains target = false) (hassigns : Assigns target ty Γ₁ Γ')
    (ih : KeepsValue context lo (value.flatten false) Γ ty Γ₁) :
    Keeps context lo (Stmt.assign target value).flatten Γ Γ' := by
  intro s Δ hΔ
  obtain ⟨flattened, s₁, hflattened, hbindings, hadvances, hvalue⟩ := ih s Δ hΔ
  have htarget := not_isNewer_of_mayBind (hwritten ▸ hname) lo
  obtain ⟨Δ', hassign, hadvances', -⟩ :=
    hadvances.carries.checks_sameAssign htarget hname hfunction hassigns hvalue
  refine ⟨flattened.bindings ++ [.assign target flattened.value], s₁, Δ', ?_,
    checks_append.mpr ⟨_, hbindings, checks_singleton.mpr hassign⟩, hadvances.trans hadvances'⟩
  rw [Stmt.flatten, bind_of_ok hflattened]
  rfl

/-- Flattening succeeds on whatever follows the rules, and keeps types. -/
theorem Checks.flattensTyped {task : Task} {Γ Γ' : VariableTypes} {verdict : Verdict}
    (h : Checks context task Γ verdict Γ') (hwritten : context.lowered = false)
    (hapart : NamesApart context lo) : FlattensTyped context lo task Γ verdict Γ' := by
  induction h with
  | known hname =>
    intro atomic s Δ hΔ
    exact ⟨_, s, rfl, .leaf hΔ (Checks.of_isAtomic (.known hname) rfl (hΔ.extended hapart)).2⟩
  | function hname hfunction =>
    intro atomic s Δ hΔ
    exact ⟨_, s, rfl,
      .leaf hΔ (Checks.of_isAtomic (.function hname hfunction) rfl (hΔ.extended hapart)).2⟩
  | int value => exact fun atomic s Δ hΔ => ⟨_, s, rfl, .leaf hΔ (.int value)⟩
  | bool value => exact fun atomic s Δ hΔ => ⟨_, s, rfl, .leaf hΔ (.bool value)⟩
  | @subscript Γ Γ₁ tuple index fields ty _ hfield ih =>
    intro atomic s Δ hΔ
    obtain ⟨first, s₁, hfirst, hbindings, hadvances, hvalue⟩ := ih true s Δ hΔ
    have hall : Expr.flattenAll [tuple, .const (.int index)] s =
        .ok ((first.bindings ++ [], [first.value, .const (.int index)]), s₁) := by
      rw [Expr.flattenAll, bind_of_ok hfirst]
      rfl
    have htyped : ValueTyped context lo s.issued s₁.issued Γ₁ Δ ty
        ⟨first.bindings ++ [], .primitive .subscript [first.value, .const (.int index)]⟩ :=
      ⟨checks_append.mpr ⟨_, hbindings, .blockNil⟩, hadvances, .subscript hvalue hfield⟩
    rw [Expr.flatten_strict rfl, bind_of_ok hall]
    exact htyped.settle hapart atomic
  | @shortCircuit Γ Γ₁ Γ₂ operator lhs rhs hoperator _ hr ihl ihr =>
    intro atomic
    rw [Expr.flatten_shortCircuit hoperator]
    exact (KeepsValue.shortCircuit hapart hoperator hr (ihl true) (ihr false)).settle hapart atomic
  | @primitive Γ Γ₁ operator operands tys ty hstrict _ hty ih =>
    intro atomic s Δ hΔ
    obtain ⟨bindings, atoms, s₁, Δ₁, hall, hbindings, hadvances, hatoms⟩ := ih s Δ hΔ
    have htyped : ValueTyped context lo s.issued s₁.issued Γ₁ Δ ty
        ⟨bindings, .primitive operator atoms⟩ :=
      ⟨hbindings, hadvances, .primitive hstrict hatoms hty⟩
    rw [Expr.flatten_strict hstrict, bind_of_ok hall]
    exact htyped.settle hapart atomic
  | @call Γ Γ₁ Γ₂ target arguments tys ty _ _ iht ihs =>
    intro atomic s Δ hΔ
    obtain ⟨first, s₁, hfirst, hbindings, hadvances, hvalue⟩ := iht true s Δ hΔ
    obtain ⟨bindings, atoms, s₂, Δ₂, hall, hbindings', hadvances', hatoms⟩ :=
      ihs s₁ _ hadvances.carries
    have hatomic := target.isAtomic_flatten_value hfirst
    have htarget := (hvalue.of_isAtomic hatomic hbindings'.extended).2
    have htyped : ValueTyped context lo s.issued s₂.issued Γ₂ Δ ty
        ⟨first.bindings ++ bindings, .call first.value atoms⟩ :=
      ⟨checks_append.mpr ⟨_, hbindings, hbindings'⟩, hadvances.trans hadvances',
        .call htarget hatoms⟩
    rw [Expr.flatten, bind_of_ok hfirst, bind_of_ok hall]
    exact htyped.settle hapart atomic
  | @tuple Γ Γ₁ fields tys _ hsize ih =>
    intro atomic s Δ hΔ
    obtain ⟨bindings, atoms, s₁, Δ₁, hall, hbindings, hadvances, hatoms⟩ := ih s Δ hΔ
    have htyped : ValueTyped context lo s.issued s₁.issued Γ₁ Δ (.tuple tys)
        ⟨bindings, .tuple atoms⟩ :=
      ⟨hbindings, hadvances, .tuple hatoms hsize⟩
    rw [Expr.flatten, bind_of_ok hall]
    exact htyped.settle hapart atomic
  | «begin» _ _ ihs ihv =>
    intro atomic s Δ hΔ
    obtain ⟨statements', s₁, Δ₁, hstatements, hchecks, hadvances⟩ := ihs s Δ hΔ
    obtain ⟨value', s₂, hvalue, hbindings, hadvances', hvalue'⟩ :=
      ihv atomic s₁ Δ₁ hadvances.carries
    refine ⟨⟨statements' ++ value'.bindings, value'.value⟩, s₂, ?_,
      checks_append.mpr ⟨_, hchecks, hbindings⟩, hadvances.trans hadvances', hvalue'⟩
    rw [Expr.flatten, bind_of_ok hstatements, bind_of_ok hvalue]
    rfl
  | global name =>
    intro atomic s Δ hΔ
    rw [Expr.flatten]
    exact (ValueTyped.leaf hΔ (.global name)).settle hapart atomic
  | allocate bytes fields =>
    intro atomic s Δ hΔ
    rw [Expr.flatten]
    exact (ValueTyped.leaf hΔ (.allocate bytes fields)).settle hapart atomic
  | exprsNil => exact fun s Δ hΔ => ⟨[], [], s, Δ, rfl, .blockNil, .refl hΔ, .exprsNil⟩
  | @exprsCons Γ Γ₁ Γ₂ expression expressions ty tys _ _ ihe ihs =>
    intro s Δ hΔ
    obtain ⟨first, s₁, hfirst, hbindings, hadvances, hvalue⟩ := ihe true s Δ hΔ
    obtain ⟨bindings, atoms, s₂, Δ₂, hall, hbindings', hadvances', hatoms⟩ :=
      ihs s₁ _ hadvances.carries
    have hatomic := expression.isAtomic_flatten_value hfirst
    refine ⟨first.bindings ++ bindings, first.value :: atoms, s₂, Δ₂, ?_,
      checks_append.mpr ⟨_, hbindings, hbindings'⟩, hadvances.trans hadvances',
      .exprsCons (hvalue.of_isAtomic hatomic hbindings'.extended).2 hatoms⟩
    rw [Expr.flattenAll, bind_of_ok hfirst, bind_of_ok hall]
    rfl
  | assignNew hname hfunction _ hnew ih =>
    exact keeps_assign hwritten hname hfunction (.inl ⟨hnew, rfl⟩) (ih false)
  | assign hname hfunction _ hold ih =>
    exact keeps_assign hwritten hname hfunction (.inr ⟨hold, rfl⟩) (ih false)
  | print _ hprintable ih =>
    intro s Δ hΔ
    obtain ⟨flattened, s₁, hflattened, hbindings, hadvances, hvalue⟩ := ih true s Δ hΔ
    refine ⟨flattened.bindings ++ [.print flattened.value], s₁, _, ?_,
      checks_append.mpr ⟨_, hbindings, checks_singleton.mpr (.print hvalue hprintable)⟩, hadvances⟩
    rw [Stmt.flatten, bind_of_ok hflattened]
    rfl
  | ifElse _ _ _ ihc ihp ihn =>
    intro s Δ hΔ
    obtain ⟨flattened, s₀, hflattened, htyped⟩ := ihc false s Δ hΔ
    obtain ⟨test, s₁, htest, hbindings, hadvances, hvalue⟩ := htyped.asTest hapart
    obtain ⟨positive', s₂, Δ₂, hpositive, hp, hadvancesp⟩ := ihp s₁ _ hadvances.carries
    obtain ⟨negative', s₃, Δ₃, hnegative, hn, hadvancesn⟩ := ihn s₂ Δ₂ hadvancesp.carries
    refine ⟨test.bindings ++ [.ifElse test.value positive' negative'], s₃, Δ₃, ?_,
      checks_append.mpr ⟨_, hbindings, checks_singleton.mpr (.ifElse hvalue hp hn)⟩,
      hadvances.trans (hadvancesp.trans hadvancesn)⟩
    rw [Stmt.flatten, bind_of_ok hflattened, bind_of_ok htest, bind_of_ok hpositive,
      bind_of_ok hnegative]
    rfl
  | whileDo _ _ ihc ihb =>
    intro s Δ hΔ
    obtain ⟨flattened, s₀, hflattened, htyped⟩ := ihc false s Δ hΔ
    obtain ⟨test, s₁, htest, htyped⟩ := htyped.asTest hapart
    obtain ⟨Δ₁, hcondition, hadvances⟩ := htyped.checks_asLoopCondition
    obtain ⟨body', s₂, Δ₂, hbody, hb, hadvances'⟩ := ihb s₁ Δ₁ hadvances.carries
    refine ⟨[.whileDo test.asLoopCondition body'], s₂, Δ₂, ?_,
      checks_singleton.mpr (.whileDo hcondition hb), hadvances.trans hadvances'⟩
    rw [Stmt.flatten, bind_of_ok hflattened, bind_of_ok htest, bind_of_ok hbody]
    rfl
  | @ret Γ Γ₁ value ty houtput _ ih =>
    intro s Δ hΔ
    have houtput : context.whenLowered.output? = some ty := houtput
    obtain ⟨flattened, s₁, hflattened, hbindings, hadvances, hvalue⟩ := ih _ s Δ hΔ
    refine ⟨flattened.bindings ++ [.ret flattened.value], s₁, _, ?_,
      checks_append.mpr ⟨_, hbindings, checks_singleton.mpr (.ret houtput hvalue)⟩, hadvances⟩
    rw [Stmt.flatten, bind_of_ok hflattened]
    rfl
  | collect bytes =>
    intro s Δ hΔ
    exact ⟨[.collect bytes], s, Δ, rfl, checks_singleton.mpr (.collect bytes), .refl hΔ⟩
  | @setField Γ Γ₁ tuple index value fields ty htuple hfield _ ih =>
    intro s Δ hΔ
    obtain ⟨flattened, s₁, hflattened, hbindings, hadvances, hvalue⟩ := ih true s Δ hΔ
    have hextends : Extends context.whenLowered.functions Γ _ :=
      (hΔ.extended hapart).trans hbindings.extended
    have htuple' := hextends.lookup htuple
    refine ⟨flattened.bindings ++ [.setField tuple index flattened.value], s₁, _, ?_,
      checks_append.mpr ⟨_, hbindings, checks_singleton.mpr (.setField htuple' hfield hvalue)⟩,
      hadvances⟩
    rw [Stmt.flatten, bind_of_ok hflattened]
    rfl
  | blockNil => exact .nil
  | blockCons _ _ ihs ihr => exact ihs.append ihr

/-! ## Programs -/

/-- Statements are flattened one by one. -/
theorem flattenBlock_of_mapM {ss : List Stmt} {parts : List (List Stmt)} {s s' : NameSupply}
    (h : ss.mapM Stmt.flatten s = .ok (parts, s')) :
    Stmt.flattenBlock ss s = .ok (parts.flatten, s') := by
  induction ss generalizing s parts with
  | nil =>
    cases h
    rfl
  | cons st ss ih =>
    rw [List.mapM_cons, bind₂_eq_ok] at h
    obtain ⟨first, s₁, rest, hfirst, hrest, rfl⟩ := h
    rw [Stmt.flattenBlock, bind_of_ok hfirst, bind_of_ok (ih hrest)]
    rfl

/-- Flattening succeeds on every program that is accepted as it is written, and the result follows
the rules with the same types. -/
theorem ProgramChecks.flatten {program : Program} {environment : TypeEnvironment}
    (h : ProgramChecks false program environment) (s : NameSupply) :
    ∃ flat s' environment', program.flatten s = .ok (flat, s') ∧
      ProgramChecks true flat environment' ∧
      EnvironmentCarries s.issued s'.issued environment environment' := by
  have hapart (output? : Option Ty) :
      NamesApart ⟨false, environment.functions, output?⟩ s.issued := fun name hname =>
    not_isNewer_of_mayBind (h.mayBind_of_contains hname) _
  have hgenerated {name : Name} (hname : name.IsNewer s.issued) : mayBind false name = false := by
    cases hbind : mayBind false name with
    | true => exact absurd hname (not_isNewer_of_mayBind hbind _)
    | false => rfl
  obtain ⟨parts, s', environment', hparts, hchecks, hcarries⟩ :=
    @ProgramChecks.lowered Stmt.flatten (fun _ body => Stmt.flattenBlock body) _ _ _ _ _ h
      (Nat.le_refl s.issued) fun final hfinal _ => {
        define := fun name parameters output body => by rw [Stmt.flatten]
        body := fun f _ Γ known hbody _ => hbody.flattensTyped rfl (hapart _)
        stmt := fun st _ Γ Γ' hst _ => hst.flattensTyped rfl (hapart none)
        old := fun f _ known hknown name hname => hfinal.unbindable (hgenerated hname)
          (fun _ _ hempty => by simp at hempty) f.name known hknown }
  refine ⟨⟨parts.flatten⟩, s', environment', ?_, hchecks, hcarries⟩
  rw [Program.flatten, bind_of_ok (flattenBlock_of_mapM hparts)]
  rfl

end Typing

end TupleLang
