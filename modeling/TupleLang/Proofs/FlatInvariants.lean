import TupleLang.Proofs.FlatteningSteps

/-!
# Invariants of flat programs

Whatever flattening makes is made in few ways: operands are atoms, conditions are tests, and values
are bound by assignments.  A `FlatInvariant` is a property of statements that is kept by these ways,
and `FlatInvariant.flatten` says that everything in the flat form of a program has it.  The property
may be a stronger one for the statements that compute an expression than for those that stand for a
statement.
-/

namespace TupleLang

open Stateful

/-! ## Simple expressions -/

/-- Whether the expression is flat and holds no statements. -/
def Expr.isSimple (e : Expr) : Bool :=
  e.isFlat && !e.isBegin

/-- Whether the expression decides a branch by looking at atoms only. -/
def Expr.isSimpleTest (e : Expr) : Bool :=
  e.isTest && e.isFlat

theorem Expr.isSimple_of_isAtomic {e : Expr} (h : e.isAtomic = true) : e.isSimple = true := by
  cases e with
  | var name => rfl
  | const value => rfl
  | _ => cases h

theorem Expr.isSimpleTest_of_isAtomic {e : Expr} (h : e.isAtomic = true) :
    e.isSimpleTest = true := by
  cases e with
  | var name => rfl
  | const value => rfl
  | _ => cases h

/-- Simple tests are simple. -/
theorem Expr.isSimple_of_isSimpleTest {e : Expr} (h : e.isSimpleTest = true) :
    e.isSimple = true := by
  rw [Expr.isSimpleTest, Bool.and_eq_true] at h
  rw [Expr.isSimple, Bool.and_eq_true]
  refine ⟨h.2, ?_⟩
  cases e with
  | «begin» statements value => cases h.1
  | _ => rfl

/-- A call stays a call where no atom is wanted. -/
theorem Expr.isCall_flatten {e : Expr} {s s' : NameSupply} {flattened : Flattened}
    (hcall : e.isCall = true) (h : e.flatten false s = .ok (flattened, s')) :
    flattened.value.isCall = true := by
  cases e with
  | call target arguments =>
    rw [Expr.flatten, bind_eq_ok] at h
    obtain ⟨target', s₁, ht, h⟩ := h
    obtain ⟨⟨bindings, atoms⟩, s₂, hall, h⟩ := bind_eq_ok.mp h
    cases h
    rfl
  | _ => cases hcall

/-! ## Invariants -/

/-- A property of values, and one of statements, that hold of everything that flattening makes of a
program in which `onExpr` and `onStmt` hold everywhere.  The property of statements knows whether a
statement is *inside* an expression, that is, computes a part of it. -/
structure FlatInvariant (onExpr : Expr → Bool) (onStmt : Stmt → Bool) (onValue : Expr → Prop)
    (holds : Bool → Stmt → Prop) : Prop where
  /-- What holds inside an expression holds anywhere. -/
  outside : ∀ st, holds true st → holds false st
  /-- Statements may come to stand inside an expression if they did before. -/
  inside : ∀ ss value, onExpr (.begin ss value) = true → ∀ st, holds false st → holds true st
  atom : ∀ e, e.isAtomic = true → onValue e
  primitive : ∀ operator operands atoms, onExpr (.primitive operator operands) = true →
    atoms.all Expr.isAtomic = true → atoms.length = operands.length →
    (operator.isShortCircuiting = true → operands.length = 2) → onValue (.primitive operator atoms)
  call : ∀ target arguments target' atoms, onExpr (.call target arguments) = true →
    target'.isAtomic = true → atoms.all Expr.isAtomic = true → atoms.length = arguments.length →
    onValue (.call target' atoms)
  tuple : ∀ atoms, atoms.all Expr.isAtomic = true → onValue (.tuple atoms)
  global : ∀ name, onExpr (.global name) = true → onValue (.global name)
  allocate : ∀ bytes ty, onValue (.allocate bytes ty)
  assign : ∀ inside target value, value.isSimple = true → onValue value →
    holds inside (.assign target value)
  ifElse : ∀ inside test positive negative, test.isSimpleTest = true → onValue test →
    (∀ st ∈ positive, holds inside st) → (∀ st ∈ negative, holds inside st) →
    holds inside (.ifElse test positive negative)
  whileDo : ∀ test : Flattened, ∀ body, (∀ st ∈ test.bindings, holds true st) →
    test.value.isSimpleTest = true → onValue test.value → (∀ st ∈ body, holds false st) →
    holds false (.whileDo test.asLoopCondition body)
  print : ∀ value, value.isAtomic = true → holds false (.print value)
  ret : ∀ value, onValue value → value.isFlat = true →
    value.isAtomic = true ∨ value.isCall = true → holds false (.ret value)
  define : ∀ name parameters output body, (∀ st ∈ body, holds false st) →
    holds false (.define name parameters output body)
  collect : ∀ bytes, holds false (.collect bytes)
  setField : ∀ tuple index value, value.isAtomic = true → holds false (.setField tuple index value)

namespace Flattened

/-- The bindings and the value of a flattened expression are as the properties want them; the value
is simple, and it is an atom if one was wanted. -/
structure Holds (onValue : Expr → Prop) (holds : Stmt → Prop) (atomic : Bool)
    (flattened : Flattened) : Prop where
  bindings : ∀ st ∈ flattened.bindings, holds st
  value : onValue flattened.value
  simple : flattened.value.isSimple = true
  atom (h : atomic = true) : flattened.value.isAtomic = true

end Flattened

namespace FlatInvariant

variable {onExpr : Expr → Bool} {onStmt : Stmt → Bool} {onValue : Expr → Prop}
  {holds : Bool → Stmt → Prop} {flattened : Flattened} {s s' : NameSupply}

/-- Expressions are flattened to as many atoms. -/
theorem flattenAll {es : List Expr}
    (h : ∀ e ∈ es, ∀ s flattened s', e.flatten true s = .ok (flattened, s') →
      flattened.Holds onValue (holds true) true)
    {bindings : List Stmt} {atoms : List Expr}
    (hflat : Expr.flattenAll es s = .ok ((bindings, atoms), s')) :
    (∀ st ∈ bindings, holds true st) ∧ atoms.all Expr.isAtomic = true ∧
      atoms.length = es.length := by
  induction es generalizing s bindings atoms with
  | nil =>
    cases hflat
    exact ⟨List.forall_mem_nil _, rfl, rfl⟩
  | cons e es ih =>
    obtain ⟨he, hes⟩ := List.forall_mem_cons.mp h
    rw [Expr.flattenAll, bind_eq_ok] at hflat
    obtain ⟨first, s₁, hfirst, hflat⟩ := hflat
    obtain ⟨⟨bindings', atoms'⟩, s₂, hrest, hflat⟩ := bind_eq_ok.mp hflat
    cases hflat
    have hholds := he _ _ _ hfirst
    obtain ⟨hbindings, hatoms, hlength⟩ := ih hes hrest
    refine ⟨List.forall_mem_append.mpr ⟨hholds.bindings, hbindings⟩, ?_, congrArg (· + 1) hlength⟩
    rw [List.all_cons, hholds.atom rfl, hatoms]
    rfl

variable (h : FlatInvariant onExpr onStmt onValue holds)
include h

theorem append (hbindings : ∀ st ∈ flattened.bindings, holds true st) {last : Stmt}
    (hlast : holds false last) : ∀ st ∈ flattened.bindings ++ [last], holds false st :=
  List.forall_mem_append.mpr ⟨fun st hst => h.outside st (hbindings st hst),
    List.forall_mem_singleton.mpr hlast⟩

/-- A value may be bound to a new name. -/
theorem bound (hflattened : flattened.Holds onValue (holds true) false) (s : NameSupply)
    (atomic : Bool) : (flattened.bound s).Holds onValue (holds true) atomic where
  bindings := List.forall_mem_append.mpr ⟨hflattened.bindings, List.forall_mem_singleton.mpr
    (h.assign true _ _ hflattened.simple hflattened.value)⟩
  value := h.atom _ rfl
  simple := rfl
  atom _ := rfl

/-- Settled values keep the invariant. -/
theorem settle {atomic : Bool} {settled : Flattened}
    (hflattened : flattened.Holds onValue (holds true) false)
    (hsettle : flattened.settle atomic s = .ok (settled, s')) :
    settled.Holds onValue (holds true) atomic := by
  rcases Flattened.settle_eq_ok hsettle with ⟨rfl, -, hatomic⟩ | ⟨rfl, -⟩
  · exact ⟨hflattened.bindings, hflattened.value, hflattened.simple, hatomic⟩
  · exact h.bound hflattened s atomic

/-- So do tests, which are simple. -/
theorem asTest {test : Flattened} (hflattened : flattened.Holds onValue (holds true) false)
    (htest : flattened.asTest s = .ok (test, s')) :
    test.Holds onValue (holds true) false ∧ test.value.isSimpleTest = true := by
  rcases Flattened.asTest_eq_ok htest with ⟨rfl, -, hdecides⟩ | ⟨rfl, -⟩
  · have hsimple := hflattened.simple
    rw [Expr.isSimple, Bool.and_eq_true] at hsimple
    exact ⟨hflattened, Bool.and_eq_true_iff.mpr ⟨hdecides, hsimple.1⟩⟩
  · exact ⟨h.bound hflattened s false, rfl⟩

/-- The conditional that an operator becomes. -/
theorem choice (operator : Operator) {test : Expr} (htest : test.isAtomic = true) (result : Name)
    (hflattened : flattened.Holds onValue (holds true) false) :
    holds true (Flattened.choice operator test result flattened) := by
  have hundecided : ∀ st ∈ flattened.bindings ++ [.assign result flattened.value],
      holds true st :=
    List.forall_mem_append.mpr ⟨hflattened.bindings, List.forall_mem_singleton.mpr
      (h.assign true _ _ hflattened.simple hflattened.value)⟩
  have hdecided (value : Bool) : ∀ st ∈ [Stmt.assign result (.bool value)], holds true st :=
    List.forall_mem_singleton.mpr (h.assign true _ _ rfl (h.atom _ rfl))
  have htest' := Expr.isSimpleTest_of_isAtomic htest
  unfold Flattened.choice
  split
  · exact h.ifElse true _ _ _ htest' (h.atom _ htest) hundecided (hdecided _)
  · exact h.ifElse true _ _ _ htest' (h.atom _ htest) (hdecided _) hundecided

/-- Everything that flattening makes has the property. -/
theorem flatten :
    TreeInduction
      (fun e => e.every onExpr onStmt = true → ∀ atomic s flattened s',
        e.flatten atomic s = .ok (flattened, s') → flattened.Holds onValue (holds true) atomic)
      (fun st => st.every onExpr onStmt = true → ∀ s flat s',
        st.flatten s = .ok (flat, s') → ∀ t ∈ flat, holds false t) where
  var name _ atomic s flattened s' hflat := by
    cases hflat
    exact ⟨List.forall_mem_nil _, h.atom _ rfl, rfl, fun _ => rfl⟩
  const value _ atomic s flattened s' hflat := by
    cases hflat
    exact ⟨List.forall_mem_nil _, h.atom _ rfl, rfl, fun _ => rfl⟩
  primitive operator operands ih hevery atomic s flattened s' hflat := by
    rw [Expr.every, Bool.and_eq_true] at hevery
    have hoperands := Expr.everyIn_iff.mp hevery.2
    rcases operator.strict_or_pair_or_refused operands with hop | ⟨hop, ⟨lhs, rhs, rfl⟩ | hrefused⟩
    · rw [Expr.flatten_strict hop, bind_eq_ok] at hflat
      obtain ⟨⟨bindings, atoms⟩, s₁, hall, hflat⟩ := hflat
      obtain ⟨hbindings, hatoms, hlength⟩ :=
        flattenAll (fun e he => ih e he (hoperands e he) true) hall
      refine h.settle ⟨hbindings, ?_, ?_, nofun⟩ hflat
      · exact h.primitive operator operands atoms hevery.1 hatoms hlength (by simp [hop])
      · simpa [Expr.isSimple, Expr.isFlat, Expr.isBegin] using hatoms
    · rw [Expr.flatten_shortCircuit hop, bind_eq_ok] at hflat
      obtain ⟨fl, s₁, hfl, hflat⟩ := hflat
      refine h.settle ?_ hflat
      obtain ⟨lhs', s₂, hl, hcases⟩ := Flattened.shortCircuit_eq_ok hfl
      have hlhs := ih lhs (by simp) (hoperands lhs (by simp)) _ _ _ _ hl
      rcases hcases with ⟨hatomic, rfl, -⟩ | ⟨rhs', hr, rfl⟩
      · have hatoms : [lhs'.value, rhs].all Expr.isAtomic = true := by
          simp [hlhs.atom rfl, hatomic]
        refine ⟨hlhs.bindings, ?_, ?_, nofun⟩
        · exact h.primitive operator [lhs, rhs] _ hevery.1 hatoms rfl fun _ => rfl
        · simpa [Expr.isSimple, Expr.isFlat, Expr.isBegin] using hatoms
      · have hrhs := ih rhs (by simp) (hoperands rhs (by simp)) _ _ _ _ hr
        refine ⟨List.forall_mem_append.mpr ⟨hlhs.bindings, ?_⟩, h.atom _ rfl, rfl, nofun⟩
        exact List.forall_mem_singleton.mpr (h.choice operator (hlhs.atom rfl) _ hrhs)
    · exact absurd hflat (Expr.flatten_refused hop atomic hrefused s _)
  call target arguments iht iha hevery atomic s flattened s' hflat := by
    rw [Expr.every, Bool.and_eq_true, Bool.and_eq_true] at hevery
    rw [Expr.flatten, bind_eq_ok] at hflat
    obtain ⟨target', s₁, ht, hflat⟩ := hflat
    obtain ⟨⟨bindings, atoms⟩, s₂, hall, hflat⟩ := bind_eq_ok.mp hflat
    have htarget := iht hevery.1.2 _ _ _ _ ht
    obtain ⟨hbindings, hatoms, hlength⟩ :=
      flattenAll (fun e he => iha e he (Expr.everyIn_iff.mp hevery.2 e he) true) hall
    refine h.settle ⟨List.forall_mem_append.mpr ⟨htarget.bindings, hbindings⟩, ?_, ?_, nofun⟩ hflat
    · exact h.call target arguments _ _ hevery.1.1 (htarget.atom rfl) hatoms hlength
    · rw [Expr.isSimple, Expr.isFlat, htarget.atom rfl, hatoms]
      rfl
  tuple fields ih hevery atomic s flattened s' hflat := by
    rw [Expr.every, Bool.and_eq_true] at hevery
    rw [Expr.flatten, bind_eq_ok] at hflat
    obtain ⟨⟨bindings, atoms⟩, s₁, hall, hflat⟩ := hflat
    obtain ⟨hbindings, hatoms, -⟩ :=
      flattenAll (fun e he => ih e he (Expr.everyIn_iff.mp hevery.2 e he) true) hall
    refine h.settle ⟨hbindings, h.tuple atoms hatoms, ?_, nofun⟩ hflat
    simpa [Expr.isSimple, Expr.isFlat, Expr.isBegin] using hatoms
  begin statements value ihs ihv hevery atomic s flattened s' hflat := by
    rw [Expr.every, Bool.and_eq_true, Bool.and_eq_true] at hevery
    rw [Expr.flatten, bind₂_eq_ok] at hflat
    obtain ⟨statements', s₁, value', hstatements, hvalue, rfl⟩ := hflat
    have hholds := ihv hevery.2 _ _ _ _ hvalue
    have hblock := Stmt.forall_mem_flattenBlock
      (fun st hst => ihs st hst (Stmt.everyIn_iff.mp hevery.1.2 st hst)) hstatements
    refine ⟨List.forall_mem_append.mpr ⟨fun st hst => ?_, hholds.bindings⟩, hholds.value,
      hholds.simple, hholds.atom⟩
    exact h.inside statements value hevery.1.1 st (hblock st hst)
  global name hevery atomic s flattened s' hflat := by
    rw [Expr.flatten] at hflat
    exact h.settle ⟨List.forall_mem_nil _, h.global name hevery, rfl, nofun⟩ hflat
  allocate bytes ty _ atomic s flattened s' hflat := by
    rw [Expr.flatten] at hflat
    exact h.settle ⟨List.forall_mem_nil _, h.allocate bytes ty, rfl, nofun⟩ hflat
  assign target value ih hevery s flat s' hflat := by
    rw [Stmt.every, Bool.and_eq_true] at hevery
    rw [Stmt.flatten, bind_pure_eq_ok] at hflat
    obtain ⟨fl, hfl, rfl⟩ := hflat
    have hholds := ih hevery.2 _ _ _ _ hfl
    exact h.append hholds.bindings (h.assign false target _ hholds.simple hholds.value)
  print value ih hevery s flat s' hflat := by
    rw [Stmt.every, Bool.and_eq_true] at hevery
    rw [Stmt.flatten, bind_pure_eq_ok] at hflat
    obtain ⟨fl, hfl, rfl⟩ := hflat
    have hholds := ih hevery.2 _ _ _ _ hfl
    exact h.append hholds.bindings (h.print _ (hholds.atom rfl))
  ifElse condition positive negative ihc ihp ihn hevery s flat s' hflat := by
    simp only [Stmt.every, Bool.and_eq_true] at hevery
    obtain ⟨⟨⟨-, hcondition⟩, hpositive⟩, hnegative⟩ := hevery
    obtain ⟨test, s₁, positive', s₂, negative', ⟨fl, s₀, hfl, htest⟩, hp, hn, rfl⟩ :=
      Stmt.flatten_ifElse_eq_ok hflat
    obtain ⟨hholds, hsimple⟩ := h.asTest (ihc hcondition _ _ _ _ hfl) htest
    refine h.append hholds.bindings (h.ifElse false _ _ _ hsimple hholds.value ?_ ?_)
    · exact Stmt.forall_mem_flattenBlock
        (fun st hst => ihp st hst (Stmt.everyIn_iff.mp hpositive st hst)) hp
    · exact Stmt.forall_mem_flattenBlock
        (fun st hst => ihn st hst (Stmt.everyIn_iff.mp hnegative st hst)) hn
  whileDo condition body ihc ihb hevery s flat s' hflat := by
    simp only [Stmt.every, Bool.and_eq_true] at hevery
    obtain ⟨⟨-, hcondition⟩, hbody⟩ := hevery
    rw [Stmt.flatten, bind_eq_ok] at hflat
    obtain ⟨fl, s₁, hfl, hflat⟩ := hflat
    rw [bind₂_eq_ok] at hflat
    obtain ⟨test, s₂, body', htest, hbody', rfl⟩ := hflat
    obtain ⟨hholds, hsimple⟩ := h.asTest (ihc hcondition _ _ _ _ hfl) htest
    have hbodies := Stmt.forall_mem_flattenBlock
      (fun st hst => ihb st hst (Stmt.everyIn_iff.mp hbody st hst)) hbody'
    exact List.forall_mem_singleton.mpr
      (h.whileDo test body' hholds.bindings hsimple hholds.value hbodies)
  ret value ih hevery s flat s' hflat := by
    rw [Stmt.every, Bool.and_eq_true] at hevery
    rw [Stmt.flatten, bind_pure_eq_ok] at hflat
    obtain ⟨fl, hfl, rfl⟩ := hflat
    have hholds := ih hevery.2 _ _ _ _ hfl
    have hsimple := hholds.simple
    rw [Expr.isSimple, Bool.and_eq_true] at hsimple
    refine h.append hholds.bindings (h.ret _ hholds.value hsimple.1 ?_)
    cases hcall : value.isCall with
    | false => exact .inl (hholds.atom (by rw [hcall]; rfl))
    | true =>
      rw [hcall] at hfl
      exact .inr (Expr.isCall_flatten hcall hfl)
  define name parameters output body ih hevery s flat s' hflat := by
    rw [Stmt.every, Bool.and_eq_true] at hevery
    rw [Stmt.flatten, bind_pure_eq_ok] at hflat
    obtain ⟨body', hbody, rfl⟩ := hflat
    have hbodies := Stmt.forall_mem_flattenBlock
      (fun st hst => ih st hst (Stmt.everyIn_iff.mp hevery.2 st hst)) hbody
    exact List.forall_mem_singleton.mpr (h.define name parameters output body' hbodies)
  collect bytes _ s flat s' hflat := by
    cases hflat
    exact List.forall_mem_singleton.mpr (h.collect bytes)
  setField tuple index value ih hevery s flat s' hflat := by
    rw [Stmt.every, Bool.and_eq_true] at hevery
    rw [Stmt.flatten, bind_pure_eq_ok] at hflat
    obtain ⟨fl, hfl, rfl⟩ := hflat
    have hholds := ih hevery.2 _ _ _ _ hfl
    exact h.append hholds.bindings (h.setField tuple index _ (hholds.atom rfl))

/-- The flat form of a program has the property. -/
theorem forall_mem_flatten {program flat : Program} (hevery : program.every onExpr onStmt = true)
    (hflat : program.flatten s = .ok (flat, s')) : ∀ st ∈ flat.statements, holds false st := by
  rw [Program.flatten, bind_pure_eq_ok] at hflat
  obtain ⟨statements, hstatements, rfl⟩ := hflat
  exact Stmt.forall_mem_flattenBlock
    (fun st hst => h.flatten.stmt st (Stmt.everyIn_iff.mp hevery st hst)) hstatements

end FlatInvariant

end TupleLang
