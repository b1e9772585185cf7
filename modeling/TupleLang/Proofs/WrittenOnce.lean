import TupleLang.Proofs.Explication

/-!
# No code is written twice

The code after a conditional is reached from both branches, and the code after a loop from the test,
which may have several parts.  `Program.toFlow` puts such code into a block of its own instead of
copying it.  So no assignment, print, collection or change of a tuple occurs more often in the
blocks of a function than in its body (`Program.toFlow_writes_once`).

`Stmt.stmts` lists the statements that stand inside a statement, and `Flow.Stmt.source?` gives the
statement that a statement of a block was made of.  The proof counts the copies of one statement:
what is in the code that a step returns and in the blocks made so far was either there before or is
written in the part of the program that the step turns into code.
-/

namespace TupleLang

open Stateful

/-! ## Statements inside a tree -/

mutual

/-- The statements inside an expression, in order. -/
def Expr.stmts : Expr → List Stmt
  | .var _ | .const _ | .global _ | .allocate _ _ => []
  | .primitive _ operands => Expr.stmtsIn operands
  | .call target arguments => target.stmts ++ Expr.stmtsIn arguments
  | .tuple fields => Expr.stmtsIn fields
  | .begin statements value => Stmt.stmtsIn statements ++ value.stmts

/-- The statements inside expressions, in order. -/
def Expr.stmtsIn : List Expr → List Stmt
  | [] => []
  | expression :: expressions => expression.stmts ++ Expr.stmtsIn expressions

/-- The statement and the statements inside it, in order; the body of a function that it defines is
no part of it. -/
def Stmt.stmts : Stmt → List Stmt
  | .assign target value => .assign target value :: value.stmts
  | .print value => .print value :: value.stmts
  | .ifElse condition positive negative =>
    .ifElse condition positive negative ::
      (condition.stmts ++ Stmt.stmtsIn positive ++ Stmt.stmtsIn negative)
  | .whileDo condition body =>
    .whileDo condition body :: (condition.stmts ++ Stmt.stmtsIn body)
  | .ret value => .ret value :: value.stmts
  | .define name parameters output body => [.define name parameters output body]
  | .collect bytes => [.collect bytes]
  | .setField tuple index value => .setField tuple index value :: value.stmts

/-- The statements of a list and the statements inside them, in order. -/
def Stmt.stmtsIn : List Stmt → List Stmt
  | [] => []
  | statement :: statements => statement.stmts ++ Stmt.stmtsIn statements

end

/-- The functions of a program, the entry point last, with their names and bodies. -/
def Program.bodies (program : Program) : List (Name × List Stmt) :=
  program.functions.map (fun function => (function.name, function.body)) ++
    [(Name.entryPoint, program.statements.filter (·.function?.isNone))]

/-! ## What statements of blocks are made of -/

namespace Flow

/-- The operation as an expression. -/
def Operation.toExpr : Operation → Expr
  | .atom operand => operand.toExpr
  | .primitive operator operands => .primitive operator (operands.map Atom.toExpr)
  | .call target arguments => .call target.toExpr (arguments.map Atom.toExpr)
  | .allocate bytes ty => .allocate bytes ty
  | .global name => .global name

/-- The statement that a statement of a block was made of, unless it passes control on. -/
def Stmt.source? : Stmt → Option TupleLang.Stmt
  | .assign target value => some (.assign target value.toExpr)
  | .print value => some (.print value.toExpr)
  | .collect bytes => some (.collect bytes)
  | .setField tuple index value => some (.setField tuple index value.toExpr)
  | .goto _ | .branch _ _ _ _ _ | .ret _ | .tailCall _ _ => none

/-- The same, where a tail call is made of the statement that returns the call. -/
def Stmt.origin? : Stmt → Option TupleLang.Stmt
  | .tailCall target arguments => some (.ret (.call target.toExpr (arguments.map Atom.toExpr)))
  | st => st.source?

/-- Statements that show their source come from it. -/
theorem Stmt.origin?_of_source? {st : Stmt} {source : TupleLang.Stmt}
    (h : st.source? = some source) : st.origin? = some source := by
  cases st with
  | tailCall target arguments => cases h
  | _ => exact h

/-- The statements of the blocks, block after block. -/
def Function.statements (function : Function) : List Stmt :=
  function.blocks.flatMap Block.statements

end Flow

/-- Atoms show the expression they are. -/
theorem Expr.toExpr_toAtom {e : Expr} {atom : Flow.Atom} (h : e.toAtom = .ok atom) :
    atom.toExpr = e := by
  cases e with
  | var | const =>
    cases h
    rfl
  | _ => cases h

/-- So do several atoms. -/
theorem Expr.toExpr_toAtoms {es : List Expr} {atoms : List Flow.Atom}
    (h : es.mapM Expr.toAtom = .ok atoms) : atoms.map Flow.Atom.toExpr = es := by
  induction es generalizing atoms with
  | nil =>
    cases h
    rfl
  | cons e es ih =>
    rw [List.mapM_cons, Except.bind_eq_ok] at h
    obtain ⟨atom, hatom, h⟩ := h
    obtain ⟨rest, hrest, h⟩ := Except.bind_eq_ok.mp h
    cases h
    rw [List.map_cons, Expr.toExpr_toAtom hatom, ih hrest]

/-- An expression that became an operation can be read off it. -/
theorem Expr.toExpr_toOperation {e : Expr} {operation : Flow.Operation}
    (h : e.toOperation = .ok operation) : operation.toExpr = e := by
  cases e with
  | var | const | allocate | global =>
    cases h
    rfl
  | primitive operator operands =>
    obtain ⟨atoms, hatoms, h⟩ := Except.bind_eq_ok.mp h
    cases h
    rw [Flow.Operation.toExpr, Expr.toExpr_toAtoms hatoms]
  | call target arguments =>
    obtain ⟨atom, hatom, h⟩ := Except.bind_eq_ok.mp h
    obtain ⟨atoms, hatoms, h⟩ := Except.bind_eq_ok.mp h
    cases h
    rw [Flow.Operation.toExpr, Expr.toExpr_toAtom hatom, Expr.toExpr_toAtoms hatoms]
  | tuple | «begin» => cases h

/-! ## Counting copies -/

namespace Flow

/-- The number of copies of a statement in blocks. -/
def copies (st : Stmt) (blocks : List Block) : Nat :=
  (blocks.flatMap Block.statements).count st

variable {label : Name} {code : List Stmt} {blocks blocks' : List Block} {s s' : NameSupply}

/-- A step that adds a block puts the copies in its code there. -/
theorem copies_addBlock (st : Stmt) (h : addBlock label code blocks s = .ok (((), blocks'), s')) :
    copies st blocks' = code.count st + copies st blocks := by
  cases h
  exact List.count_append

/-- A new block adds its statements. -/
theorem copies_newBlock (st : Stmt) (h : newBlock code blocks s = .ok ((label, blocks'), s')) :
    copies st blocks' = code.count st + copies st blocks := by
  cases h
  exact List.count_append

/-- Code that only jumps is not put into a block, and holds no copy. -/
theorem copies_labelFor (st : Stmt) (h : labelFor code blocks s = .ok ((label, blocks'), s')) :
    copies st blocks' ≤ code.count st + copies st blocks := by
  unfold labelFor at h
  split at h
  · cases h
    exact Nat.le_add_left _ _
  · exact Nat.le_of_eq (copies_newBlock st h)

/-- The code that a step returns and the blocks after it hold at most so many more copies of the
statement than the blocks before it. -/
def Writes (st : Stmt) (m : Building (List Stmt)) (count : Nat) : Prop :=
  ∀ blocks s code blocks' s', m blocks s = .ok ((code, blocks'), s') →
    code.count st + copies st blocks' ≤ count + copies st blocks

namespace Writes

variable {st : Stmt} {count : Nat}

theorem pure {code : List Stmt} (h : code.count st ≤ count) : Writes st (Pure.pure code) count := by
  intro blocks s code' blocks' s' hcode
  cases hcode
  exact Nat.add_le_add_right h _

/-- A step that starts with a computation without blocks. -/
theorem lift_bind {α : Type} {part : Except CompileError α} {f : α → Building (List Stmt)}
    (h : ∀ a, part = .ok a → Writes st (f a) count) : Writes st (liftM part >>= f) count := by
  intro blocks s code blocks' s' hcode
  obtain ⟨a, blocks₁, s₁, hlift, hrest⟩ := bind_eq_ok.mp hcode
  obtain ⟨ha, rfl, rfl⟩ := liftM_eq_ok.mp hlift
  exact h a ha _ _ _ _ _ hrest

/-- A step that starts with a list of computations without blocks. -/
theorem mapM_lift_bind {α γ : Type} {part : γ → Except CompileError α}
    {f : List α → Building (List Stmt)} {cs : List γ}
    (h : ∀ as, cs.mapM part = .ok as → Writes st (f as) count) :
    Writes st (cs.mapM (liftM ∘ part) >>= f) count := by
  induction cs generalizing f with
  | nil => exact h [] rfl
  | cons c cs ih =>
    rw [List.mapM_cons, bind_assoc]
    refine lift_bind fun a ha => ?_
    rw [bind_assoc]
    refine ih fun as has => h (a :: as) ?_
    rw [List.mapM_cons, ha, has]
    rfl

/-- A step that refuses a construct returns nothing. -/
theorem refuse (construct : Construct) :
    Writes st (liftM (Flow.refuse construct : Except CompileError (List Stmt))) count :=
  fun _ _ _ _ _ h => by cases h

end Writes

section Sources

variable {st first : Stmt} {source origin : TupleLang.Stmt}

/-- A statement that passes control on is no copy. -/
theorem count_of_origin?_eq_none (hst : st.origin? = some source) (hfirst : first.origin? = none) :
    [first].count st = 0 := by
  refine List.count_cons_of_ne ?_
  rintro rfl
  rw [hfirst] at hst
  cases hst

/-- A step that returns a statement that passes control on. -/
theorem Writes.last (hst : st.origin? = some source) (hlast : first.origin? = none) (count : Nat) :
    Writes st (Pure.pure [first]) count :=
  .pure (Nat.le_trans (Nat.le_of_eq (count_of_origin?_eq_none hst hlast)) (Nat.zero_le _))

variable [DecidableEq TupleLang.Stmt]

/-- A statement in front of code is a copy only of the statement that it was made of. -/
theorem count_cons_le (hst : st.origin? = some source) (hfirst : first.origin? = some origin)
    (code : List Stmt) (rest : List TupleLang.Stmt) :
    (first :: code).count st + rest.count source ≤
      code.count st + (origin :: rest).count source := by
  by_cases heq : first = st
  · subst heq
    obtain rfl : origin = source := Option.some.inj (hfirst.symm.trans hst)
    rw [List.count_cons_self, List.count_cons_self]
    omega
  · rw [List.count_cons_of_ne heq]
    exact Nat.add_le_add_left List.count_le_count_cons _

/-- A step that puts a statement in front of code. -/
theorem Writes.cons (hst : st.origin? = some source) (hfirst : first.source? = some origin)
    (next : List Stmt) (rest : List TupleLang.Stmt) :
    Writes st (Pure.pure (first :: next)) (next.count st + (origin :: rest).count source) :=
  .pure (Nat.le_trans (Nat.le_add_right _ _)
    (count_cons_le hst (Stmt.origin?_of_source? hfirst) next rest))

end Sources

end Flow

open TupleLang.Flow
  (Writes copies_addBlock copies_newBlock copies_labelFor count_of_origin?_eq_none)

section Copies

variable [DecidableEq Stmt] {st : Flow.Stmt} {source : Stmt} {environment : TypeEnvironment}
  {name : Name} {parameters : List Name} {body : List Stmt} {s s' : NameSupply}
  {function : Flow.Function}

/-- The statements of a block, one after the other. -/
theorem Stmt.writes_toFlowBlock {ss : List Stmt}
    (h : ∀ stmt ∈ ss, ∀ next,
      Writes st (stmt.toFlow next) (next.count st + stmt.stmts.count source))
    (next : List Flow.Stmt) :
    Writes st (Stmt.toFlowBlock next ss) (next.count st + (Stmt.stmtsIn ss).count source) := by
  induction ss with
  | nil =>
    intro blocks s code blocks' s' hcode
    cases hcode
    exact Nat.le_refl _
  | cons stmt ss ih =>
    obtain ⟨hstmt, hss⟩ := List.forall_mem_cons.mp h
    intro blocks s code blocks' s' hcode
    rw [Stmt.toFlowBlock] at hcode
    obtain ⟨rest, blocks₁, s₁, hrest, hcode⟩ := Flow.bind_eq_ok.mp hcode
    have hle₁ := ih hss _ _ _ _ _ hrest
    have hle₂ := hstmt rest _ _ _ _ _ hcode
    rw [Stmt.stmtsIn, List.count_append]
    omega

/-- The operands of `and` and `or` are turned into code once each: the right one first, and its
label is passed to the left one. -/
theorem Expr.writes_pair {lhs rhs : Expr} {positive negative : Name}
    {left : Name → Flow.Building (List Flow.Stmt)}
    (hright : Writes st (rhs.toBranch positive negative) (rhs.stmts.count source))
    (hleft : ∀ label, Writes st (left label) (lhs.stmts.count source)) :
    Writes st (do
      let right ← Flow.labelFor (← rhs.toBranch positive negative)
      left right) ((Expr.stmtsIn [lhs, rhs]).count source) := by
  intro blocks s code blocks' s' hcode
  obtain ⟨test, blocks₁, s₁, htest, hcode⟩ := Flow.bind_eq_ok.mp hcode
  obtain ⟨label, blocks₂, s₂, hlabel, hcode⟩ := Flow.bind_eq_ok.mp hcode
  have hle₁ := hright _ _ _ _ _ htest
  have hle₂ := copies_labelFor st hlabel
  have hle₃ := hleft label _ _ _ _ _ hcode
  rw [Expr.stmtsIn, Expr.stmtsIn, Expr.stmtsIn, List.count_append, List.append_nil]
  omega

/-- Turning a part of a program into code copies no statement: each copy is written in the part, or
was there before. -/
theorem writes_toFlow (hst : st.origin? = some source) :
    TreeInduction
      (fun e => ∀ positive negative,
        Writes st (e.toBranch positive negative) (e.stmts.count source))
      (fun stmt => ∀ next,
        Writes st (stmt.toFlow next) (next.count st + stmt.stmts.count source)) where
  var name positive negative := .last hst rfl _
  const value positive negative := by
    cases value with
    | int value => exact .refuse _
    | bool value => exact .last hst rfl _
  primitive operator operands ih positive negative := by
    unfold Expr.toBranch
    split
    · next heq => cases heq
    · next heq => cases heq
    · next operand heq =>
      cases heq
      have hwrites := ih operand List.mem_cons_self negative positive
      rwa [Expr.stmts, Expr.stmtsIn, Expr.stmtsIn, List.append_nil]
    · next lhs rhs heq =>
      cases heq
      exact Expr.writes_pair (ih rhs (by simp) positive negative)
        fun right => ih lhs (by simp) right negative
    · next lhs rhs heq =>
      cases heq
      exact Expr.writes_pair (ih rhs (by simp) positive negative)
        fun right => ih lhs (by simp) positive right
    · next lhs rhs heq =>
      cases heq
      split
      · exact .lift_bind fun _ _ => .lift_bind fun _ _ => .lift_bind fun _ _ => .last hst rfl _
      · exact .lift_bind fun _ _ => .lift_bind fun _ _ => .last hst rfl _
    · next heq => cases heq
    · exact .refuse _
  call target arguments _ _ positive negative := .refuse _
  tuple fields _ positive negative := .refuse _
  begin statements value ihs ihv positive negative := by
    intro blocks s code blocks' s' hcode
    rw [Expr.toBranch] at hcode
    obtain ⟨test, blocks₁, s₁, htest, hcode⟩ := Flow.bind_eq_ok.mp hcode
    have hle₁ := ihv positive negative _ _ _ _ _ htest
    have hle₂ := Stmt.writes_toFlowBlock ihs test _ _ _ _ _ hcode
    rw [Expr.stmts, List.count_append]
    omega
  global name positive negative := .refuse _
  allocate bytes ty positive negative := .refuse _
  assign target value _ next :=
    .lift_bind fun _ h =>
      .cons hst (by rw [Flow.Stmt.source?, Expr.toExpr_toOperation h]) next value.stmts
  print value _ next :=
    .lift_bind fun _ h =>
      .cons hst (by rw [Flow.Stmt.source?, Expr.toExpr_toAtom h]) next value.stmts
  ifElse condition positive negative ihc ihp ihn next := by
    intro blocks s code blocks' s' hcode
    rw [Stmt.toFlow] at hcode
    obtain ⟨join, blocks₁, s₁, hjoin, hcode⟩ := Flow.bind_eq_ok.mp hcode
    obtain ⟨then', blocks₂, s₂, hthen, hcode⟩ := Flow.bind_eq_ok.mp hcode
    obtain ⟨positive', blocks₃, s₃, hpositive, hcode⟩ := Flow.bind_eq_ok.mp hcode
    obtain ⟨else', blocks₄, s₄, helse, hcode⟩ := Flow.bind_eq_ok.mp hcode
    obtain ⟨negative', blocks₅, s₅, hnegative, hcode⟩ := Flow.bind_eq_ok.mp hcode
    -- `next` is counted where it gets its label; the code of a branch only jumps there
    have hgoto : [Flow.Stmt.goto join].count st = 0 := count_of_origin?_eq_none hst rfl
    have hle₁ := copies_labelFor st hjoin
    have hle₂ := Stmt.writes_toFlowBlock ihp _ _ _ _ _ _ hthen
    have hle₃ := copies_newBlock st hpositive
    have hle₄ := Stmt.writes_toFlowBlock ihn _ _ _ _ _ _ helse
    have hle₅ := copies_newBlock st hnegative
    have hle₆ := ihc positive' negative' _ _ _ _ _ hcode
    have hinside : (Stmt.ifElse condition positive negative).stmts.count source ≥
        condition.stmts.count source + (Stmt.stmtsIn positive).count source +
          (Stmt.stmtsIn negative).count source := by
      rw [Stmt.stmts, ← List.count_append, ← List.count_append]
      exact List.count_le_count_cons
    omega
  whileDo condition body ihc ihb next := by
    intro blocks s code blocks' s' hcode
    rw [Stmt.toFlow] at hcode
    obtain ⟨join, blocks₁, s₁, hjoin, hcode⟩ := Flow.bind_eq_ok.mp hcode
    obtain ⟨test, blocks₂, s₂, htest, hcode⟩ := Flow.bind_eq_ok.mp hcode
    cases htest
    obtain ⟨body', blocks₃, s₃, hbody, hcode⟩ := Flow.bind_eq_ok.mp hcode
    obtain ⟨label, blocks₄, s₄, hlabel, hcode⟩ := Flow.bind_eq_ok.mp hcode
    obtain ⟨branch, blocks₅, s₅, hbranch, hcode⟩ := Flow.bind_eq_ok.mp hcode
    obtain ⟨⟨⟩, blocks₆, s₆, hloop, hcode⟩ := Flow.bind_eq_ok.mp hcode
    cases hcode
    -- the loop is entered and entered again by jumps, so its test is counted in its block only
    have hgoto (label : Name) : [Flow.Stmt.goto label].count st = 0 :=
      count_of_origin?_eq_none hst rfl
    have hle₁ := copies_labelFor st hjoin
    have hle₂ := Stmt.writes_toFlowBlock ihb _ _ _ _ _ _ hbody
    have hle₃ := copies_newBlock st hlabel
    have hle₄ := ihc label join _ _ _ _ _ hbranch
    have hle₅ := copies_addBlock st hloop
    have hinside : (Stmt.whileDo condition body).stmts.count source ≥
        condition.stmts.count source + (Stmt.stmtsIn body).count source := by
      rw [Stmt.stmts, ← List.count_append]
      exact List.count_le_count_cons
    rw [hgoto] at hle₂ ⊢
    omega
  ret value _ next := by
    cases value with
    | call target arguments =>
      rw [Stmt.toFlow]
      refine .lift_bind fun target' htarget => .mapM_lift_bind fun atoms hatoms => .pure ?_
      have horigin : (Flow.Stmt.tailCall target' atoms).origin? =
          some (.ret (.call target arguments)) := by
        rw [Flow.Stmt.origin?, Expr.toExpr_toAtom htarget, Expr.toExpr_toAtoms hatoms]
      have hle := Flow.count_cons_le hst horigin [] (Expr.call target arguments).stmts
      rw [Stmt.stmts]
      rw [List.count_nil] at hle
      omega
    | _ => exact .lift_bind fun _ _ => .last hst rfl _
  define name parameters output body _ next := .refuse _
  collect bytes next := .cons hst rfl next []
  setField tuple index value _ next :=
    .lift_bind fun _ h =>
      .cons hst (by rw [Flow.Stmt.source?, Expr.toExpr_toAtom h]) next value.stmts

/-- A function holds at most the copies that its body holds. -/
theorem Stmt.count_functionOf_le (hst : st.origin? = some source)
    (h : Flow.functionOf environment name parameters body s = .ok (function, s')) :
    function.statements.count st ≤ (Stmt.stmtsIn body).count source := by
  obtain ⟨start, blocks, hblocks, rfl⟩ := Flow.functionOf_eq_ok h
  have hle := Stmt.writes_toFlowBlock ((writes_toFlow hst).stmts body) _ _ _ _ _ _ hblocks
  rw [count_of_origin?_eq_none hst rfl] at hle
  calc (start ++ blocks.flatMap Flow.Block.statements).count st
      = start.count st + Flow.copies st blocks := List.count_append
    _ ≤ 0 + (Stmt.stmtsIn body).count source + Flow.copies st [] := hle
    _ = (Stmt.stmtsIn body).count source := Nat.zero_add _

/-- Each statement of a function was made of a statement inside its body. -/
theorem Stmt.mem_of_mem_functionOf (hst : st.origin? = some source)
    (h : Flow.functionOf environment name parameters body s = .ok (function, s'))
    (hmem : st ∈ function.statements) : source ∈ Stmt.stmtsIn body :=
  List.count_pos_iff.mp
    (Nat.lt_of_lt_of_le (List.count_pos_iff.mpr hmem) (Stmt.count_functionOf_le hst h))

end Copies

/-- Each assignment, print, collection and change of a tuple occurs in the blocks of a function at
most as often as the statement that it was made of occurs in the body of the function. -/
theorem Program.toFlow_writes_once [DecidableEq Stmt] {program : Program}
    {environment : TypeEnvironment} {flow : Flow.Program} {s s' : NameSupply}
    (h : program.toFlow environment s = .ok (flow, s')) :
    List.Forall₂ (fun source function => function.name = source.1 ∧
        ∀ st origin, st.source? = some origin →
          function.statements.count st ≤ (Stmt.stmtsIn source.2).count origin)
      program.bodies flow.functions := by
  have hfunction {name : Name} {parameters : List Name} {body : List Stmt} {s s' : NameSupply}
      {function : Flow.Function}
      (h : Flow.functionOf environment name parameters body s = .ok (function, s')) :
      function.name = name ∧ ∀ st origin, st.source? = some origin →
        function.statements.count st ≤ (Stmt.stmtsIn body).count origin := by
    refine ⟨?_, fun st origin hst => Stmt.count_functionOf_le (Flow.Stmt.origin?_of_source? hst) h⟩
    obtain ⟨start, blocks, -, rfl⟩ := Flow.functionOf_eq_ok h
    rfl
  obtain ⟨functions, s₁, entry, hfunctions, hentry, rfl⟩ := Program.toFlow_eq_ok h
  refine List.rel_append (List.forall₂_map_left_iff.mpr ?_) (.cons (hfunction hentry) .nil)
  refine (forall₂_of_mapM hfunctions).imp fun f function hmade => ?_
  obtain ⟨_, _, hmade⟩ := hmade
  exact hfunction hmade

/-- A conditional inside a conditional, whose test has three parts, and a loop that runs statements
before each test; everything is followed by the same statement. -/
def Program.sharedTails : Program := ⟨[
  .define "f" [("a", .bool), ("b", .bool)] .int
    [.ifElse (.primitive .or [.primitive .and [.var "a", .var "b"], .primitive .not [.var "a"]])
        [.print (.int 1), .ifElse (.var "b") [.print (.int 2)] [], .print (.int 3)]
        [.print (.int 2)],
      .print (.int 3),
      .ret (.int 0)],
  .assign "n" (.int 3),
  .whileDo (.begin [.print (.int 3), .assign "t" (.primitive .lt [.int 0, .var "n"])] (.var "t"))
    [.assign "n" (.primitive .sub [.var "n", .int 1]), .print (.int 3)],
  .print (.int 3)]⟩

open scoped Classical in
/-- No statement of `sharedTails` is written twice. -/
theorem Program.toFlow_writes_once_sharedTails :
    ∃ flow s', Program.sharedTails.toFlow {} {} = .ok (flow, s') ∧
      List.Forall₂ (fun source function => function.name = source.1 ∧
          ∀ st origin, st.source? = some origin →
            function.statements.count st ≤ (Stmt.stmtsIn source.2).count origin)
        Program.sharedTails.bodies flow.functions := by
  obtain ⟨⟨flow, s'⟩, hflow⟩ : ∃ made, Program.sharedTails.toFlow {} {} = .ok made :=
    Except.exists_ok_of_isSome (by decide +kernel)
  exact ⟨flow, s', hflow, Program.toFlow_writes_once hflow⟩

end TupleLang
