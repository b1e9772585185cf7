import TupleLang.Proofs.NormalForm

/-!
# Flat programs stay as they are

Flattening reaches its normal form in one pass: a flat program is flattened to itself, and no name
is taken on the way (`Program.flatten_reaches_normal_form`).  A statement or an expression is
*settled* if that holds of it.  Atoms are settled, and so is everything that is made of atoms in the
way in which flattening makes it; so what flattening produces is settled
(`flatInvariant_isSettled`).

The normal form alone would not do: an operator that may skip its right operand is refused unless
it has two operands, and only that no other one got through the first pass rules this out.
-/

namespace TupleLang

open Stateful

/-- Flattening leaves the expression as it is and takes no name. -/
def Expr.IsSettled (e : Expr) : Prop :=
  ∀ s, e.flatten false s = .ok (⟨[], e⟩, s)

/-- Flattening leaves the statement as it is and takes no name. -/
def Stmt.IsSettled (st : Stmt) : Prop :=
  ∀ s, st.flatten s = .ok ([st], s)

/-! ## Expressions -/

variable {e : Expr} {onExpr : Expr → Bool} {onStmt : Stmt → Bool}

/-- Atoms are flat. -/
theorem Expr.flatten_of_isAtomic (h : e.isAtomic = true) (atomic : Bool) (s : NameSupply) :
    e.flatten atomic s = .ok (⟨[], e⟩, s) := by
  cases e with
  | var name => rfl
  | const value => rfl
  | _ => cases h

/-- So are lists of atoms. -/
theorem Expr.flattenAll_of_isAtomic {es : List Expr} (h : es.all Expr.isAtomic = true)
    (s : NameSupply) : Expr.flattenAll es s = .ok (([], es), s) := by
  induction es with
  | nil => rfl
  | cons e es ih =>
    rw [List.all_cons, Bool.and_eq_true] at h
    rw [Expr.flattenAll, bind_of_ok (Expr.flatten_of_isAtomic h.1 true s), bind_of_ok (ih h.2)]
    rfl

/-- Atoms stay as they are. -/
theorem Expr.isSettled_of_isAtomic (h : e.isAtomic = true) : e.IsSettled :=
  Expr.flatten_of_isAtomic h false

/-- So do operators on atoms. -/
theorem Expr.isSettled_strict {operator : Operator} (hoperator : operator.isShortCircuiting = false)
    {operands : List Expr} (h : operands.all Expr.isAtomic = true) :
    (Expr.primitive operator operands).IsSettled := by
  intro s
  rw [Expr.flatten_strict hoperator, bind_of_ok (Expr.flattenAll_of_isAtomic h s)]
  rfl

/-- So do `and` and `or` on atoms. -/
theorem Expr.isSettled_shortCircuit {operator : Operator}
    (hoperator : operator.isShortCircuiting = true) {lhs rhs : Expr}
    (hlhs : lhs.isAtomic = true) (hrhs : rhs.isAtomic = true) :
    (Expr.primitive operator [lhs, rhs]).IsSettled := by
  intro s
  have hstays : Flattened.shortCircuit operator rhs (lhs.flatten true) (rhs.flatten false) s =
      .ok (⟨[], .primitive operator [lhs, rhs]⟩, s) := by
    rw [Flattened.shortCircuit, bind_of_ok (Expr.flatten_of_isAtomic hlhs true s), if_pos hrhs]
    rfl
  rw [Expr.flatten_shortCircuit hoperator, bind_of_ok hstays]
  rfl

/-- So do calls on atoms. -/
theorem Expr.isSettled_call {target : Expr} {arguments : List Expr}
    (htarget : target.isAtomic = true) (harguments : arguments.all Expr.isAtomic = true) :
    (Expr.call target arguments).IsSettled := by
  intro s
  rw [Expr.flatten, bind_of_ok (Expr.flatten_of_isAtomic htarget true s),
    bind_of_ok (Expr.flattenAll_of_isAtomic harguments s)]
  rfl

/-- So do tuples of atoms. -/
theorem Expr.isSettled_tuple {fields : List Expr} (h : fields.all Expr.isAtomic = true) :
    (Expr.tuple fields).IsSettled := by
  intro s
  rw [Expr.flatten, bind_of_ok (Expr.flattenAll_of_isAtomic h s)]
  rfl

/-- A value that decides a branch is a test as it is. -/
theorem Flattened.asTest_of_isTest {flattened : Flattened} (h : flattened.value.isTest = true)
    (s : NameSupply) : flattened.asTest s = .ok (flattened, s) := by
  rw [Flattened.asTest, if_pos h]
  rfl

/-! ## Statements -/

namespace Stmt

variable {value condition : Expr} {ss positive negative body : List Stmt}

/-- Statements that stay as they are do so together. -/
theorem flattenBlock_of_isSettled (h : ∀ st ∈ ss, st.IsSettled) (s : NameSupply) :
    Stmt.flattenBlock ss s = .ok (ss, s) := by
  induction ss with
  | nil => rfl
  | cons st ss ih =>
    obtain ⟨hst, hss⟩ := List.forall_mem_cons.mp h
    rw [Stmt.flattenBlock, bind_of_ok (hst s), bind_of_ok (ih hss)]
    rfl

/-- Assignments of what stays do. -/
theorem isSettled_assign (h : value.IsSettled) (target : Name) :
    (Stmt.assign target value).IsSettled := by
  intro s
  rw [Stmt.flatten, bind_of_ok (h s)]
  rfl

/-- Prints of atoms do. -/
theorem isSettled_print (h : value.isAtomic = true) : (Stmt.print value).IsSettled := by
  intro s
  rw [Stmt.flatten, bind_of_ok (Expr.flatten_of_isAtomic h true s)]
  rfl

/-- Fields set to atoms do. -/
theorem isSettled_setField (h : value.isAtomic = true) (tuple : Name) (index : Nat) :
    (Stmt.setField tuple index value).IsSettled := by
  intro s
  rw [Stmt.flatten, bind_of_ok (Expr.flatten_of_isAtomic h true s)]
  rfl

/-- A returned value stays if it is an atom, and a returned call if it is settled. -/
theorem isSettled_ret (h : value.IsSettled)
    (hnormal : value.isAtomic = true ∨ value.isCall = true) : (Stmt.ret value).IsSettled := by
  intro s
  have hvalue : value.flatten (!value.isCall) s = .ok (⟨[], value⟩, s) := by
    rcases hnormal with hatomic | hcall
    · exact Expr.flatten_of_isAtomic hatomic _ s
    · rw [hcall]
      exact h s
  rw [Stmt.flatten, bind_of_ok hvalue]
  rfl

/-- Functions whose bodies stay do. -/
theorem isSettled_define (h : ∀ st ∈ body, st.IsSettled) (name : Name)
    (parameters : List (Name × Ty)) (output : Ty) :
    (Stmt.define name parameters output body).IsSettled := by
  intro s
  rw [Stmt.flatten, bind_of_ok (flattenBlock_of_isSettled h s)]
  rfl

/-- Conditionals whose parts stay do. -/
theorem isSettled_ifElse (hcondition : condition.IsSettled) (htest : condition.isTest = true)
    (hpositive : ∀ st ∈ positive, st.IsSettled) (hnegative : ∀ st ∈ negative, st.IsSettled) :
    (Stmt.ifElse condition positive negative).IsSettled := by
  intro s
  rw [Stmt.flatten, bind_of_ok (hcondition s), bind_of_ok (Flattened.asTest_of_isTest htest s),
    bind_of_ok (flattenBlock_of_isSettled hpositive s),
    bind_of_ok (flattenBlock_of_isSettled hnegative s)]
  rfl

/-- The statements of a loop's condition are flattened apart from the test, and stay with it. -/
theorem isSettled_whileDo {test : Flattened} (hbindings : ∀ st ∈ test.bindings, st.IsSettled)
    (hvalue : test.value.IsSettled) (htest : test.value.isTest = true)
    (hbody : ∀ st ∈ body, st.IsSettled) :
    (Stmt.whileDo test.asLoopCondition body).IsSettled := by
  intro s
  have hcondition : test.asLoopCondition.flatten false s = .ok (test, s) := by
    unfold Flattened.asLoopCondition
    split
    · next hempty =>
      rw [hvalue s, ← List.isEmpty_iff.mp hempty]
    · rw [Expr.flatten, bind_of_ok (flattenBlock_of_isSettled hbindings s),
        bind_of_ok (hvalue s), List.append_nil]
      rfl
  rw [Stmt.flatten, bind_of_ok hcondition, bind_of_ok (Flattened.asTest_of_isTest htest s),
    bind_of_ok (flattenBlock_of_isSettled hbody s)]
  rfl

end Stmt

/-- What flattening makes is settled. -/
theorem flatInvariant_isSettled : FlatInvariant (fun _ => true) (fun _ => true) Expr.IsSettled
    (fun _ => Stmt.IsSettled) where
  outside _ h := h
  inside _ _ _ _ h := h
  atom _ h := Expr.isSettled_of_isAtomic h
  primitive operator operands atoms _ hatoms hlength hpair := by
    cases hop : operator.isShortCircuiting with
    | false => exact Expr.isSettled_strict hop hatoms
    | true =>
      -- an operator that may skip an operand gets through only with two of them
      obtain ⟨lhs, rhs, rfl⟩ := List.length_eq_two.mp (hlength.trans (hpair hop))
      simp only [List.all_cons, Bool.and_eq_true] at hatoms
      exact Expr.isSettled_shortCircuit hop hatoms.1 hatoms.2.1
  call _ _ _ _ _ htarget hatoms _ := Expr.isSettled_call htarget hatoms
  tuple _ hatoms := Expr.isSettled_tuple hatoms
  global _ _ _ := rfl
  allocate _ _ _ := rfl
  assign _ target _ _ hvalue := Stmt.isSettled_assign hvalue target
  ifElse _ _ _ _ htest hvalue hpositive hnegative :=
    Stmt.isSettled_ifElse hvalue (Bool.and_eq_true_iff.mp htest).1 hpositive hnegative
  whileDo _ _ hbindings htest hvalue hbody :=
    Stmt.isSettled_whileDo hbindings hvalue (Bool.and_eq_true_iff.mp htest).1 hbody
  print _ h := Stmt.isSettled_print h
  ret _ hvalue _ h := Stmt.isSettled_ret hvalue h
  define name parameters output _ h := Stmt.isSettled_define h name parameters output
  collect _ _ := rfl
  setField tuple index _ h := Stmt.isSettled_setField h tuple index

/-! ## Statements inside expressions -/

/-- Whether no `begin` occurs in the expression. -/
def Expr.isBeginFree (e : Expr) : Bool :=
  e.every (!·.isBegin) fun _ => true

/-- Whether a `begin` occurs in the statement, the statements inside it apart, only as the whole
condition of a loop. -/
def Stmt.beginsOnlyLoops : Stmt → Bool
  | .assign _ value | .print value | .ret value | .setField _ _ value | .ifElse value _ _
  | .whileDo (.begin _ value) _ | .whileDo value _ => value.isBeginFree
  | .define _ _ _ _ | .collect _ => true

/-- Whatever holds of all but sequences holds of atoms. -/
theorem Expr.every_of_isAtomic (hexpr : ∀ e : Expr, e.isBegin = false → onExpr e = true)
    (h : e.isAtomic = true) : e.every onExpr onStmt = true := by
  cases e with
  | var name => exact hexpr _ rfl
  | const value => exact hexpr _ rfl
  | _ => cases h

/-- What holds of every expression but a `begin` holds everywhere in a simple one. -/
theorem Expr.every_of_isSimple (hexpr : ∀ e : Expr, e.isBegin = false → onExpr e = true)
    (h : e.isSimple = true) : e.every onExpr onStmt = true := by
  have hatoms {es : List Expr} (hes : es.all Expr.isAtomic = true) :
      Expr.everyIn onExpr onStmt es = true :=
    Expr.everyIn_iff.mpr fun e he => Expr.every_of_isAtomic hexpr (List.all_eq_true.mp hes e he)
  rw [Expr.isSimple, Bool.and_eq_true] at h
  obtain ⟨hflat, hbegin⟩ := h
  cases e with
  | var | const | global | allocate => exact hexpr _ rfl
  | primitive operator operands | tuple fields =>
    rw [Expr.every, hexpr _ rfl, hatoms hflat]
    rfl
  | call target arguments =>
    rw [Expr.isFlat, Bool.and_eq_true] at hflat
    rw [Expr.every, hexpr _ rfl, Expr.every_of_isAtomic hexpr hflat.1, hatoms hflat.2]
    rfl
  | «begin» => cases hbegin

/-- Simple expressions have no sequences inside. -/
theorem Expr.isBeginFree_of_isSimple (h : e.isSimple = true) : e.isBeginFree = true :=
  Expr.every_of_isSimple (fun _ he => by rw [he]; rfl) h

/-- No `begin` and no statement stands inside a simple expression. -/
theorem Expr.holds_no_statements (onStmt : Stmt → Bool) (h : e.isSimple = true) :
    (e.isBeginFree && e.every (fun _ => true) onStmt) = true := by
  rw [Expr.isBeginFree_of_isSimple h, Expr.every_of_isSimple (fun _ _ => rfl) h]
  rfl

/-- Whatever holds of statements in normal form holds of a block of them. -/
theorem Stmt.everyIn_of_areNormal {literals : Bool} {ss : List Stmt}
    (h : ∀ st ∈ ss, st.isNormal literals = true → st.every onExpr onStmt = true)
    (hnormal : Stmt.areNormal literals ss = true) : Stmt.everyIn onExpr onStmt ss = true :=
  Stmt.everyIn_iff.mpr fun st hst => h st hst (Stmt.areNormal_iff.mp hnormal st hst)

/-- In normal form, a `begin` occurs only as the whole condition of a loop. -/
theorem begins_of_isNormal (literals : Bool) :
    TreeInduction
      (fun e => ∀ ss value, e = .begin ss value → Stmt.areNormal literals ss = true →
        Stmt.everyIn (fun _ => true) Stmt.beginsOnlyLoops ss = true)
      (fun st => st.isNormal literals = true →
        st.every (fun _ => true) Stmt.beginsOnlyLoops = true) where
  var _ _ _ he := nomatch he
  const _ _ _ he := nomatch he
  primitive _ _ _ _ _ he := nomatch he
  call _ _ _ _ _ _ he := nomatch he
  tuple _ _ _ _ he := nomatch he
  begin statements value ihs _ ss value' he hnormal := by
    cases he
    exact Stmt.everyIn_of_areNormal ihs hnormal
  global _ _ _ he := nomatch he
  allocate _ _ _ _ he := nomatch he
  assign target value _ hnormal := by
    rw [Stmt.isNormal, Bool.and_eq_true] at hnormal
    exact Expr.holds_no_statements _ hnormal.1
  print value _ hnormal := Expr.holds_no_statements _ (Expr.isSimple_of_isAtomic hnormal)
  ifElse condition positive negative _ ihp ihn hnormal := by
    rw [Stmt.isNormal, Bool.and_eq_true, Bool.and_eq_true] at hnormal
    have hcondition := Expr.holds_no_statements Stmt.beginsOnlyLoops
      (Expr.isSimple_of_isSimpleTest hnormal.1.1)
    rw [Stmt.every, Stmt.beginsOnlyLoops, hcondition, Stmt.everyIn_of_areNormal ihp hnormal.1.2,
      Stmt.everyIn_of_areNormal ihn hnormal.2]
    rfl
  whileDo condition body ihc ihb hnormal := by
    cases condition with
    | «begin» statements value =>
      simp only [Stmt.isNormal, Bool.and_eq_true] at hnormal
      obtain ⟨⟨⟨-, hstatements⟩, htest⟩, hbody⟩ := hnormal
      have hsimple := Expr.isSimple_of_isSimpleTest htest
      simp only [Stmt.every, Stmt.beginsOnlyLoops, Expr.every,
        Expr.isBeginFree_of_isSimple hsimple, Expr.every_of_isSimple (fun _ _ => rfl) hsimple,
        ihc statements value rfl hstatements, Stmt.everyIn_of_areNormal ihb hbody]
      rfl
    | _ =>
      simp only [Stmt.isNormal, Bool.and_eq_true] at hnormal
      rw [Stmt.every]
      exact Bool.and_eq_true_iff.mpr
        ⟨Expr.holds_no_statements _ (Expr.isSimple_of_isSimpleTest hnormal.1),
          Stmt.everyIn_of_areNormal ihb hnormal.2⟩
  ret value _ hnormal := Expr.holds_no_statements _ (Stmt.isSimple_of_isNormal_ret hnormal)
  define name parameters output body ih hnormal := Stmt.everyIn_of_areNormal ih hnormal
  collect bytes _ := rfl
  setField tuple index value _ hnormal :=
    Expr.holds_no_statements _ (Expr.isSimple_of_isAtomic hnormal)

/-! ## Programs -/

/-- What flattening makes of a program is in normal form, a `begin` occurs in it only as the whole
condition of a loop, and flattening it again changes nothing and takes no name. -/
theorem Program.flatten_reaches_normal_form {program flat : Program} {s s' : NameSupply}
    (h : program.flatten s = .ok (flat, s')) :
    flat.isNormal true = true ∧ flat.every (fun _ => true) Stmt.beginsOnlyLoops = true ∧
      ∀ supply, flat.flatten supply = .ok (flat, supply) := by
  have hnormal := Program.isNormal_flatten h
  refine ⟨hnormal, Stmt.everyIn_of_areNormal (fun st _ => (begins_of_isNormal true).stmt st)
    hnormal, fun supply => ?_⟩
  have hsettled := flatInvariant_isSettled.forall_mem_flatten program.every_true h
  rw [Program.flatten, bind_of_ok (Stmt.flattenBlock_of_isSettled hsettled supply)]
  rfl

/-- Statements in a returned value and in the left operand of a loop's condition, and a call in the
right one. -/
def Program.nestedBegins : Program := ⟨[
  .define "f" [("n", .int)] .int
    [.ret (.begin [.print (.var "n")] (.call (.var "f") [.var "n"]))],
  .whileDo (.primitive .or [.begin [.assign "b" (.bool true)] (.var "b"),
      .primitive .lt [.call (.var "f") [.int 3], .int 4]])
    [.assign "t" (.tuple [.var "b", .primitive .neg [.int 1]])]]⟩

/-- The flat form of `nestedBegins`. -/
def Program.nestedBeginsFlat : Program := ⟨[
  .define "f" [("n", .int)] .int
    [.print (.var "n"), .assign "tmp.1" (.call (.var "f") [.var "n"]), .ret (.var "tmp.1")],
  .whileDo (.begin [.assign "b" (.bool true),
      .ifElse (.var "b") [.assign "tmp.2" (.bool true)]
        [.assign "tmp.3" (.call (.var "f") [.int 3]),
          .assign "tmp.2" (.primitive .lt [.var "tmp.3", .int 4])]] (.var "tmp.2"))
    [.assign "tmp.4" (.primitive .neg [.int 1]),
      .assign "t" (.tuple [.var "b", .var "tmp.4"])]]⟩

/-- `nestedBegins` reaches its normal form in one pass. -/
theorem Program.flatten_reaches_normal_form_nestedBegins :
    Program.nestedBegins.flatten ⟨0⟩ = .ok (Program.nestedBeginsFlat, ⟨4⟩) ∧
      Program.nestedBeginsFlat.isNormal true = true ∧
      Program.nestedBeginsFlat.every (fun _ => true) Stmt.beginsOnlyLoops = true ∧
      ∀ supply, Program.nestedBeginsFlat.flatten supply =
        .ok (Program.nestedBeginsFlat, supply) := by
  have hflat : Program.nestedBegins.flatten ⟨0⟩ = .ok (Program.nestedBeginsFlat, ⟨4⟩) := rfl
  exact ⟨hflat, Program.flatten_reaches_normal_form hflat⟩

end TupleLang
