import TupleLang.Program.Flat
import TupleLang.Proofs.Occurrence
import TupleLang.Proofs.Stateful

/-!
# The steps of flattening

Flattening takes names from a supply and binds values to them.  This module says once what each of
its steps produces: binding and settling a value (`Flattened.bind_eq`, `Flattened.settle_eq_ok`),
making a test of it (`Flattened.asTest_eq_ok`), and the three ways of an operator
(`Expr.flatten_shortCircuit`, `Expr.flatten_strict`, `Expr.flatten_refused`).  No step gives a name
back (`grows_flatten`).
-/

namespace TupleLang

open Stateful

/-! ## Names are only taken -/

namespace Flattened

theorem grows_bind (flattened : Flattened) : flattened.bind.Grows :=
  (Lowering.Grows.fresh _).bind fun _ => .pure _

theorem grows_settle (atomic : Bool) (flattened : Flattened) : (flattened.settle atomic).Grows := by
  unfold settle
  split
  · exact flattened.grows_bind
  · exact .pure _

theorem grows_asTest (flattened : Flattened) : flattened.asTest.Grows := by
  unfold asTest
  split
  · exact .pure _
  · exact flattened.grows_bind

/-- Names taken by both operands. -/
theorem grows_shortCircuit (operator : Operator) (rhs : Expr) {left right : Lowering Flattened}
    (hleft : left.Grows) (hright : right.Grows) :
    (shortCircuit operator rhs left right).Grows := by
  refine hleft.bind fun lhs => ?_
  split
  · exact .pure _
  · exact (Lowering.Grows.fresh _).bind fun result => hright.bind fun rhs => .pure _

end Flattened

/-! ## Operators -/

variable {operator : Operator} {ss : List Stmt}

/-- An operator that may skip its right operand is flattened in a way of its own. -/
theorem Expr.flatten_shortCircuit (h : operator.isShortCircuiting = true) (atomic : Bool)
    (lhs rhs : Expr) :
    (Expr.primitive operator [lhs, rhs]).flatten atomic = (do
      let flattened ←
        Flattened.shortCircuit operator rhs (lhs.flatten true) (rhs.flatten false)
      flattened.settle atomic) := by
  cases operator with
  | and => rw [Expr.flatten]
  | or => rw [Expr.flatten]
  | _ => cases h

/-- The operands of any other operator become atoms. -/
theorem Expr.flatten_strict (h : operator.isShortCircuiting = false) (atomic : Bool)
    (operands : List Expr) :
    (Expr.primitive operator operands).flatten atomic = (do
      let (bindings, atoms) ← Expr.flattenAll operands
      Flattened.settle atomic ⟨bindings, .primitive operator atoms⟩) := by
  cases operator with
  | and => cases h
  | or => cases h
  | _ =>
    rw [Expr.flatten]
    · rfl
    all_goals exact nofun

/-- An operator that may skip its right operand is refused unless it has two operands. -/
theorem Expr.flatten_refused (h : operator.isShortCircuiting = true) (atomic : Bool)
    {operands : List Expr} (hoperands : ∀ lhs rhs, operands ≠ [lhs, rhs]) (supply : NameSupply)
    (r : Flattened × NameSupply) :
    (Expr.primitive operator operands).flatten atomic supply ≠ .ok r := by
  rw [Expr.flatten]
  · rw [if_pos h]
    exact nofun
  · exact fun lhs rhs _ => hoperands lhs rhs
  · exact fun lhs rhs _ => hoperands lhs rhs

/-- An operator skips its right operand, or evaluates all of its operands, or is refused. -/
theorem Operator.strict_or_pair_or_refused (operator : Operator) (operands : List Expr) :
    operator.isShortCircuiting = false ∨
    operator.isShortCircuiting = true ∧ ((∃ lhs rhs, operands = [lhs, rhs]) ∨
      ∀ lhs rhs, operands ≠ [lhs, rhs]) := by
  cases operator.isShortCircuiting with
  | false => exact .inl rfl
  | true =>
    refine .inr ⟨rfl, ?_⟩
    by_cases h : ∃ lhs rhs, operands = [lhs, rhs]
    · exact .inl h
    · exact .inr fun lhs rhs he => h ⟨lhs, rhs, he⟩

/-- Names taken by several expressions. -/
theorem Expr.grows_flattenAll {es : List Expr} (h : ∀ e ∈ es, ∀ atomic, (e.flatten atomic).Grows) :
    (Expr.flattenAll es).Grows := by
  induction es with
  | nil => exact .pure _
  | cons e es ih =>
    obtain ⟨he, hes⟩ := List.forall_mem_cons.mp h
    exact (he true).bind fun first => (ih hes).bind fun rest => .pure _

/-- Names taken by a block. -/
theorem Stmt.grows_flattenBlock (h : ∀ s ∈ ss, s.flatten.Grows) : (Stmt.flattenBlock ss).Grows := by
  induction ss with
  | nil => exact .pure _
  | cons s ss ih =>
    obtain ⟨hs, hss⟩ := List.forall_mem_cons.mp h
    exact hs.bind fun first => (ih hss).bind fun rest => .pure _

/-- Flattening never gives names back to the supply. -/
theorem grows_flatten :
    TreeInduction (fun e => ∀ atomic, (e.flatten atomic).Grows) (fun s => s.flatten.Grows) where
  var name atomic := .pure _
  const value atomic := .pure _
  primitive operator operands ih atomic := by
    rcases operator.strict_or_pair_or_refused operands with h | ⟨h, ⟨lhs, rhs, rfl⟩ | hrefused⟩
    · rw [Expr.flatten_strict h]
      exact (Expr.grows_flattenAll ih).bind fun _ => Flattened.grows_settle _ _
    · rw [Expr.flatten_shortCircuit h]
      exact (Flattened.grows_shortCircuit _ _ (ih lhs (by simp) _) (ih rhs (by simp) _)).bind
        fun _ => Flattened.grows_settle _ _
    · exact fun supply a supply' hr => absurd hr (Expr.flatten_refused h atomic hrefused supply _)
  call target arguments iht iha atomic :=
    (iht true).bind fun _ => (Expr.grows_flattenAll iha).bind fun _ => Flattened.grows_settle _ _
  tuple fields ih atomic := (Expr.grows_flattenAll ih).bind fun _ => Flattened.grows_settle _ _
  begin statements value ihs ihv atomic :=
    (Stmt.grows_flattenBlock ihs).bind fun _ => (ihv atomic).bind fun _ => .pure _
  global name atomic := Flattened.grows_settle _ _
  allocate bytes ty atomic := Flattened.grows_settle _ _
  assign target value ih := (ih false).bind fun _ => .pure _
  print value ih := (ih true).bind fun _ => .pure _
  ifElse condition positive negative ihc ihp ihn :=
    (ihc false).bind fun _ => (Flattened.grows_asTest _).bind fun _ =>
      (Stmt.grows_flattenBlock ihp).bind fun _ => (Stmt.grows_flattenBlock ihn).bind fun _ =>
        .pure _
  whileDo condition body ihc ihb :=
    (ihc false).bind fun _ => (Flattened.grows_asTest _).bind fun _ =>
      (Stmt.grows_flattenBlock ihb).bind fun _ => .pure _
  ret value ih := (ih _).bind fun _ => .pure _
  define name parameters output body ih := (Stmt.grows_flattenBlock ih).bind fun _ => .pure _
  collect bytes := .pure _
  setField tuple index value ih := (ih true).bind fun _ => .pure _

/-! ## What the steps of flattening produce -/

namespace Flattened

/-- The name that is handed out for the next value to be bound. -/
def nextName (supply : NameSupply) : Name :=
  NameSupply.nameAt "tmp" (supply.issued + 1)

/-- The expression whose value is bound to the next name. -/
def bound (flattened : Flattened) (supply : NameSupply) : Flattened :=
  ⟨flattened.bindings ++ [.assign (nextName supply) flattened.value], .var (nextName supply)⟩

/-- What a binding gives, and the name it takes. -/
theorem bind_eq (flattened : Flattened) (supply : NameSupply) :
    flattened.bind supply = .ok (flattened.bound supply, ⟨supply.issued + 1⟩) :=
  rfl

variable {flattened : Flattened} {s s' : NameSupply}

/-- Settling binds the value or leaves everything as it is. -/
theorem settle_eq_ok {atomic : Bool} {settled : Flattened}
    (h : flattened.settle atomic s = .ok (settled, s')) :
    (settled = flattened ∧ s' = s ∧ (atomic = true → flattened.value.isAtomic = true)) ∨
    (settled = flattened.bound s ∧ s' = ⟨s.issued + 1⟩) := by
  unfold settle at h
  split at h
  · cases h
    exact .inr ⟨rfl, rfl⟩
  · rename_i hatomic
    cases h
    refine .inl ⟨rfl, rfl, fun ha => ?_⟩
    simpa [ha] using hatomic

/-- Making a test binds the value or leaves everything as it is. -/
theorem asTest_eq_ok {test : Flattened} (h : flattened.asTest s = .ok (test, s')) :
    (test = flattened ∧ s' = s ∧ flattened.value.isTest = true) ∨
    (test = flattened.bound s ∧ s' = ⟨s.issued + 1⟩) := by
  unfold asTest at h
  split at h
  · rename_i htest
    cases h
    exact .inl ⟨rfl, rfl, htest⟩
  · cases h
    exact .inr ⟨rfl, rfl⟩

/-- The conditional that an operator becomes whose right operand is no atom. -/
def choice (operator : Operator) (test : Expr) (result : Name) (rhs : Flattened) : Stmt :=
  let undecided := rhs.bindings ++ [.assign result rhs.value]
  let decided := [Stmt.assign result (.bool (operator == .or))]
  if operator = .and then .ifElse test undecided decided else .ifElse test decided undecided

/-- An operator that may skip its right operand keeps its place or becomes a conditional. -/
theorem shortCircuit_eq_ok {operator : Operator} {rhs : Expr} {left right : Lowering Flattened}
    (h : shortCircuit operator rhs left right s = .ok (flattened, s')) :
    ∃ lhs s₁, left s = .ok (lhs, s₁) ∧
      ((rhs.isAtomic = true ∧ flattened = ⟨lhs.bindings, .primitive operator [lhs.value, rhs]⟩ ∧
        s' = s₁) ∨
      ∃ rhs', right ⟨s₁.issued + 1⟩ = .ok (rhs', s') ∧ flattened =
        ⟨lhs.bindings ++ [choice operator lhs.value (nextName s₁) rhs'], .var (nextName s₁)⟩) := by
  unfold shortCircuit at h
  obtain ⟨lhs, s₁, hleft, h⟩ := bind_eq_ok.mp h
  refine ⟨lhs, s₁, hleft, ?_⟩
  split at h
  · rename_i hatomic
    cases h
    exact .inl ⟨hatomic, rfl, rfl⟩
  · rw [bind_of_ok (Lowering.fresh_eq_ok _ _), bind_pure_eq_ok] at h
    obtain ⟨rhs', hright, rfl⟩ := h
    exact .inr ⟨rhs', hright, rfl⟩

end Flattened

/-- A conditional is flattened to a test, with its statements before it, and the branches. -/
theorem Stmt.flatten_ifElse_eq_ok {condition : Expr} {positive negative : List Stmt}
    {s s' : NameSupply} (h : (Stmt.ifElse condition positive negative).flatten s = .ok (ss, s')) :
    ∃ test s₁ positive' s₂ negative',
      (∃ flattened s₀, condition.flatten false s = .ok (flattened, s₀) ∧
        flattened.asTest s₀ = .ok (test, s₁)) ∧
      Stmt.flattenBlock positive s₁ = .ok (positive', s₂) ∧
      Stmt.flattenBlock negative s₂ = .ok (negative', s') ∧
      ss = test.bindings ++ [.ifElse test.value positive' negative'] := by
  rw [Stmt.flatten, bind_eq_ok] at h
  obtain ⟨flattened, s₀, hflattened, h⟩ := h
  obtain ⟨test, s₁, htest, h⟩ := bind_eq_ok.mp h
  rw [bind₂_eq_ok] at h
  obtain ⟨positive', s₂, negative', hpositive, hnegative, rfl⟩ := h
  exact ⟨test, s₁, positive', s₂, negative', ⟨flattened, s₀, hflattened, htest⟩, hpositive,
    hnegative, rfl⟩

/-! ## What all statements that were made have in common -/

/-- What holds of the flat form of each statement holds of that of all of them. -/
theorem Stmt.forall_mem_flattenBlock {p : Stmt → Prop}
    (h : ∀ st ∈ ss, ∀ s flat s', st.flatten s = .ok (flat, s') → ∀ t ∈ flat, p t)
    {s s' : NameSupply} {flat : List Stmt} (hflat : Stmt.flattenBlock ss s = .ok (flat, s')) :
    ∀ t ∈ flat, p t := by
  induction ss generalizing s flat with
  | nil =>
    cases hflat
    exact List.forall_mem_nil _
  | cons st ss ih =>
    obtain ⟨hst, hss⟩ := List.forall_mem_cons.mp h
    rw [Stmt.flattenBlock, bind₂_eq_ok] at hflat
    obtain ⟨first, s₁, rest, hfirst, hrest, rfl⟩ := hflat
    exact List.forall_mem_append.mpr ⟨hst _ _ _ hfirst, ih hss hrest⟩

end TupleLang
