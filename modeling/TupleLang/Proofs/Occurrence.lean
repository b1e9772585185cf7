import TupleLang.Error

/-!
# What occurs in a program

`Expr.every` and `Stmt.every` look at every expression and every statement inside a tree, the tree
itself included.  With it come three properties of programs: that only forms of programs as
written occur (`Program.isSurface`), that no `begin` occurs (`Program.isBeginFree`), and that all
names are of a certain kind (`Program.everyName`).

Names taken from a supply are told apart by their numbers (`NameSupply.nameAt_inj`), and all of
them are generated names (`NameSupply.isGenerated_nameAt`), which no name of a program as written
is.

Expressions and statements contain lists of each other.  `TreeInduction` is the induction over both
at once, in which a list is looked at through its members.
-/

namespace TupleLang

/-! ## Walking through a tree -/

mutual

/-- Whether every expression and every statement inside an expression passes. -/
def Expr.every (onExpr : Expr → Bool) (onStmt : Stmt → Bool) : Expr → Bool
  | .var name => onExpr (.var name)
  | .const value => onExpr (.const value)
  | .primitive operator operands =>
    onExpr (.primitive operator operands) && Expr.everyIn onExpr onStmt operands
  | .call target arguments =>
    onExpr (.call target arguments) && target.every onExpr onStmt &&
      Expr.everyIn onExpr onStmt arguments
  | .tuple fields => onExpr (.tuple fields) && Expr.everyIn onExpr onStmt fields
  | .begin statements value =>
    onExpr (.begin statements value) && Stmt.everyIn onExpr onStmt statements &&
      value.every onExpr onStmt
  | .global name => onExpr (.global name)
  | .allocate bytes ty => onExpr (.allocate bytes ty)

/-- Whether every expression and every statement inside a list of expressions passes. -/
def Expr.everyIn (onExpr : Expr → Bool) (onStmt : Stmt → Bool) : List Expr → Bool
  | [] => true
  | expression :: expressions =>
    expression.every onExpr onStmt && Expr.everyIn onExpr onStmt expressions

/-- Whether every expression and every statement inside a statement passes. -/
def Stmt.every (onExpr : Expr → Bool) (onStmt : Stmt → Bool) : Stmt → Bool
  | .assign target value => onStmt (.assign target value) && value.every onExpr onStmt
  | .print value => onStmt (.print value) && value.every onExpr onStmt
  | .ifElse condition positive negative =>
    onStmt (.ifElse condition positive negative) && condition.every onExpr onStmt &&
      Stmt.everyIn onExpr onStmt positive && Stmt.everyIn onExpr onStmt negative
  | .whileDo condition body =>
    onStmt (.whileDo condition body) && condition.every onExpr onStmt &&
      Stmt.everyIn onExpr onStmt body
  | .ret value => onStmt (.ret value) && value.every onExpr onStmt
  | .define name parameters output body =>
    onStmt (.define name parameters output body) && Stmt.everyIn onExpr onStmt body
  | .collect bytes => onStmt (.collect bytes)
  | .setField tuple index value =>
    onStmt (.setField tuple index value) && value.every onExpr onStmt

/-- Whether every expression and every statement inside a list of statements passes. -/
def Stmt.everyIn (onExpr : Expr → Bool) (onStmt : Stmt → Bool) : List Stmt → Bool
  | [] => true
  | statement :: statements =>
    statement.every onExpr onStmt && Stmt.everyIn onExpr onStmt statements

end

/-- Whether every expression and every statement inside a program passes. -/
def Program.every (onExpr : Expr → Bool) (onStmt : Stmt → Bool) (program : Program) : Bool :=
  Stmt.everyIn onExpr onStmt program.statements

/-- Whether only forms that stand in programs as written occur in the program. -/
def Program.isSurface (program : Program) : Bool :=
  program.every
    (fun
      | .begin _ _ | .global _ | .allocate _ _ => false
      | _ => true)
    (fun
      | .collect _ | .setField _ _ _ => false
      | _ => true)

/-- Whether the expression is a `begin`. -/
def Expr.isBegin : Expr → Bool
  | .begin _ _ => true
  | _ => false

/-- The name that an expression itself, and no part of it, mentions. -/
def Expr.ownNames : Expr → List Name
  | .var name => [name]
  | _ => []

/-- The names that a statement itself, and no part of it, mentions. -/
def Stmt.ownNames : Stmt → List Name
  | .assign target _ => [target]
  | .setField tuple _ _ => [tuple]
  | .define name parameters _ _ => name :: parameters.map Prod.fst
  | _ => []

/-- Whether no `begin` occurs in the program. -/
def Program.isBeginFree (program : Program) : Bool :=
  program.every (!·.isBegin) fun _ => true

/-- Whether all names of variables, parameters and functions in the program are good. -/
def Program.everyName (good : Name → Bool) (program : Program) : Bool :=
  program.every (·.ownNames.all good) (·.ownNames.all good)

section Every

variable {onExpr onExpr' : Expr → Bool} {onStmt onStmt' : Stmt → Bool}

mutual

/-- Two properties hold everywhere in an expression exactly when both of them do. -/
theorem Expr.every_and : ∀ e : Expr,
    e.every (fun e => onExpr e && onExpr' e) (fun s => onStmt s && onStmt' s) =
      (e.every onExpr onStmt && e.every onExpr' onStmt')
  | .var _ | .const _ | .global _ | .allocate _ _ => rfl
  | .primitive _ operands => by
    simp only [Expr.every, Expr.everyIn_and operands]
    ac_rfl
  | .call target arguments => by
    simp only [Expr.every, target.every_and, Expr.everyIn_and arguments]
    ac_rfl
  | .tuple fields => by
    simp only [Expr.every, Expr.everyIn_and fields]
    ac_rfl
  | .begin statements value => by
    simp only [Expr.every, Stmt.everyIn_and statements, value.every_and]
    ac_rfl

/-- Two properties hold everywhere in a list of expressions exactly when both of them do. -/
theorem Expr.everyIn_and : ∀ es : List Expr,
    Expr.everyIn (fun e => onExpr e && onExpr' e) (fun s => onStmt s && onStmt' s) es =
      (Expr.everyIn onExpr onStmt es && Expr.everyIn onExpr' onStmt' es)
  | [] => rfl
  | e :: es => by
    simp only [Expr.everyIn, e.every_and, Expr.everyIn_and es]
    ac_rfl

/-- Two properties hold everywhere in a statement exactly when both of them do. -/
theorem Stmt.every_and : ∀ s : Stmt,
    s.every (fun e => onExpr e && onExpr' e) (fun s => onStmt s && onStmt' s) =
      (s.every onExpr onStmt && s.every onExpr' onStmt')
  | .assign _ value | .print value | .ret value | .setField _ _ value => by
    simp only [Stmt.every, value.every_and]
    ac_rfl
  | .ifElse condition positive negative => by
    simp only [Stmt.every, condition.every_and, Stmt.everyIn_and positive,
      Stmt.everyIn_and negative]
    ac_rfl
  | .whileDo condition body => by
    simp only [Stmt.every, condition.every_and, Stmt.everyIn_and body]
    ac_rfl
  | .define _ _ _ body => by
    simp only [Stmt.every, Stmt.everyIn_and body]
    ac_rfl
  | .collect _ => rfl

/-- Two properties hold everywhere in a list of statements exactly when both of them do. -/
theorem Stmt.everyIn_and : ∀ ss : List Stmt,
    Stmt.everyIn (fun e => onExpr e && onExpr' e) (fun s => onStmt s && onStmt' s) ss =
      (Stmt.everyIn onExpr onStmt ss && Stmt.everyIn onExpr' onStmt' ss)
  | [] => rfl
  | s :: ss => by
    simp only [Stmt.everyIn, s.every_and, Stmt.everyIn_and ss]
    ac_rfl

end

/-- A property holds everywhere in a list of expressions exactly when it does in each of them. -/
theorem Expr.everyIn_iff {es : List Expr} :
    Expr.everyIn onExpr onStmt es = true ↔ ∀ e ∈ es, e.every onExpr onStmt = true := by
  induction es with
  | nil => exact ⟨fun _ => List.forall_mem_nil _, fun _ => rfl⟩
  | cons e es ih => rw [Expr.everyIn, Bool.and_eq_true, List.forall_mem_cons, ih]

/-- A property holds everywhere in a list of statements exactly when it does in each of them. -/
theorem Stmt.everyIn_iff {ss : List Stmt} :
    Stmt.everyIn onExpr onStmt ss = true ↔ ∀ s ∈ ss, s.every onExpr onStmt = true := by
  induction ss with
  | nil => exact ⟨fun _ => List.forall_mem_nil _, fun _ => rfl⟩
  | cons s ss ih => rw [Stmt.everyIn, Bool.and_eq_true, List.forall_mem_cons, ih]

end Every

/-! ## Induction on a tree -/

/-- What is to be shown of every expression and every statement, from the parts to the whole. -/
structure TreeInduction (onExpr : Expr → Prop) (onStmt : Stmt → Prop) : Prop where
  var : ∀ name, onExpr (.var name)
  const : ∀ value, onExpr (.const value)
  primitive : ∀ operator operands, (∀ e ∈ operands, onExpr e) →
    onExpr (.primitive operator operands)
  call : ∀ target arguments, onExpr target → (∀ e ∈ arguments, onExpr e) →
    onExpr (.call target arguments)
  tuple : ∀ fields, (∀ e ∈ fields, onExpr e) → onExpr (.tuple fields)
  begin : ∀ statements value, (∀ s ∈ statements, onStmt s) → onExpr value →
    onExpr (.begin statements value)
  global : ∀ name, onExpr (.global name)
  allocate : ∀ bytes ty, onExpr (.allocate bytes ty)
  assign : ∀ target value, onExpr value → onStmt (.assign target value)
  print : ∀ value, onExpr value → onStmt (.print value)
  ifElse : ∀ condition positive negative, onExpr condition → (∀ s ∈ positive, onStmt s) →
    (∀ s ∈ negative, onStmt s) → onStmt (.ifElse condition positive negative)
  whileDo : ∀ condition body, onExpr condition → (∀ s ∈ body, onStmt s) →
    onStmt (.whileDo condition body)
  ret : ∀ value, onExpr value → onStmt (.ret value)
  define : ∀ name parameters output body, (∀ s ∈ body, onStmt s) →
    onStmt (.define name parameters output body)
  collect : ∀ bytes, onStmt (.collect bytes)
  setField : ∀ tuple index value, onExpr value → onStmt (.setField tuple index value)

namespace TreeInduction

variable {onExpr : Expr → Prop} {onStmt : Stmt → Prop}

mutual

/-- The induction reaches every expression. -/
theorem expr (h : TreeInduction onExpr onStmt) : ∀ e : Expr, onExpr e
  | .var name => h.var name
  | .const value => h.const value
  | .primitive operator operands => h.primitive operator operands (exprs h operands)
  | .call target arguments => h.call target arguments (expr h target) (exprs h arguments)
  | .tuple fields => h.tuple fields (exprs h fields)
  | .begin statements value => h.begin statements value (stmts h statements) (expr h value)
  | .global name => h.global name
  | .allocate bytes ty => h.allocate bytes ty

/-- The induction reaches every member of a list of expressions. -/
theorem exprs (h : TreeInduction onExpr onStmt) : ∀ es : List Expr, ∀ e ∈ es, onExpr e
  | [] => nofun
  | first :: rest => List.forall_mem_cons.mpr ⟨expr h first, exprs h rest⟩

/-- The induction reaches every statement. -/
theorem stmt (h : TreeInduction onExpr onStmt) : ∀ s : Stmt, onStmt s
  | .assign target value => h.assign target value (expr h value)
  | .print value => h.print value (expr h value)
  | .ifElse condition positive negative =>
    h.ifElse condition positive negative (expr h condition) (stmts h positive) (stmts h negative)
  | .whileDo condition body => h.whileDo condition body (expr h condition) (stmts h body)
  | .ret value => h.ret value (expr h value)
  | .define name parameters output body => h.define name parameters output body (stmts h body)
  | .collect bytes => h.collect bytes
  | .setField tuple index value => h.setField tuple index value (expr h value)

/-- The induction reaches every member of a list of statements. -/
theorem stmts (h : TreeInduction onExpr onStmt) : ∀ ss : List Stmt, ∀ s ∈ ss, onStmt s
  | [] => nofun
  | first :: rest => List.forall_mem_cons.mpr ⟨stmt h first, stmts h rest⟩

end

end TreeInduction

/-- What always holds does so everywhere. -/
theorem every_true : TreeInduction (fun e => e.every (fun _ => true) (fun _ => true) = true)
    (fun s => s.every (fun _ => true) (fun _ => true) = true) where
  var _ := rfl
  const _ := rfl
  primitive _ _ ih := Expr.everyIn_iff.mpr ih
  call _ _ iht iha := Bool.and_eq_true_iff.mpr ⟨iht, Expr.everyIn_iff.mpr iha⟩
  tuple _ ih := Expr.everyIn_iff.mpr ih
  begin _ _ ihs ihv := Bool.and_eq_true_iff.mpr ⟨Stmt.everyIn_iff.mpr ihs, ihv⟩
  global _ := rfl
  allocate _ _ := rfl
  assign _ _ ih := ih
  print _ ih := ih
  ifElse _ _ _ ihc ihp ihn := Bool.and_eq_true_iff.mpr
    ⟨Bool.and_eq_true_iff.mpr ⟨ihc, Stmt.everyIn_iff.mpr ihp⟩, Stmt.everyIn_iff.mpr ihn⟩
  whileDo _ _ ihc ihb := Bool.and_eq_true_iff.mpr ⟨ihc, Stmt.everyIn_iff.mpr ihb⟩
  ret _ ih := ih
  define _ _ _ _ ih := Stmt.everyIn_iff.mpr ih
  collect _ := rfl
  setField _ _ _ ih := ih

theorem Program.every_true (program : Program) :
    program.every (fun _ => true) (fun _ => true) = true :=
  Stmt.everyIn_iff.mpr (TupleLang.every_true.stmts program.statements)

/-! ## Names from a supply -/

namespace NameSupply

/-- The characters of a name from a supply. -/
theorem toList_nameAt (base : String) (number : Nat) :
    (nameAt base number).toList = base.toList ++ Name.separator :: Nat.toDigits 10 number := by
  simp [nameAt, Name.separator, Nat.toList_repr]

/-- The digits of a number do not hold the separator. -/
theorem separator_notMem_toDigits (number : Nat) : Name.separator ∉ Nat.toDigits 10 number := by
  intro h
  have hdigit := Nat.isDigit_of_mem_toDigits (by decide) (by decide) h
  exact absurd hdigit (by decide)

/-- Every name from a supply is a generated name. -/
theorem isGenerated_nameAt (base : String) (number : Nat) :
    Name.isGenerated (nameAt base number) = true := by
  simp [Name.isGenerated, toList_nameAt]

/-- Two lists that continue with the same mark, which occurs no more after that, agree before and
after it. -/
theorem append_cons_inj {α : Type} {a : α} {xs xs' ys ys' : List α} (hys : a ∉ ys) (hys' : a ∉ ys')
    (h : xs ++ a :: ys = xs' ++ a :: ys') : xs = xs' ∧ ys = ys' := by
  rcases List.append_eq_append_iff.mp h with ⟨zs, rfl, hzs⟩ | ⟨zs, rfl, hzs⟩
  · cases zs with
    | nil => simpa using hzs
    | cons z zs =>
      obtain ⟨rfl, rfl⟩ := List.cons.inj hzs
      exact absurd (by simp) hys
  · cases zs with
    | nil => simpa [eq_comm] using hzs
    | cons z zs =>
      obtain ⟨rfl, rfl⟩ := List.cons.inj hzs
      exact absurd (by simp) hys'

/-- Names from a supply agree only if their bases and their numbers do. -/
theorem nameAt_inj {base base' : String} {number number' : Nat} :
    nameAt base number = nameAt base' number' ↔ base = base' ∧ number = number' := by
  refine ⟨fun h => ?_, fun ⟨hb, hn⟩ => by rw [hb, hn]⟩
  have hlist := congrArg String.toList h
  rw [toList_nameAt, toList_nameAt] at hlist
  obtain ⟨hbase, hdigits⟩ := append_cons_inj (separator_notMem_toDigits _)
    (separator_notMem_toDigits _) hlist
  refine ⟨String.toList_inj.mp hbase, ?_⟩
  rw [← Nat.ofDigitChars_ten_toDigits (n := number), hdigits, Nat.ofDigitChars_ten_toDigits]

end NameSupply

end TupleLang
