import TupleLang.Flow.Build
import TupleLang.Proofs.CheckedPrograms

/-!
# From checked programs to control-flow programs

A program in normal form without tuple literals that follows the typing rules can be turned into a
control-flow program, and the result is *closed* (`Typing.ProgramChecks.toFlow`): every block ends
with its only statement that passes control on, to labels of the same function, and instructions
can be selected for all statements (`Flow.IsCode`).  So it is well formed
(`Flow.Program.IsClosed.validate`).

Code is made back to front, and the block of a loop's test is added after code that jumps to it.
So `Flow.Builds` speaks about labels that are known in the end: once all labels of blocks are
known, and those that the code after a statement continues at, the code of the statement continues
at known labels only.
-/

namespace TupleLang

open Interpreter (Task)
open Stateful

namespace Flow

/-! ## Code -/

/-- Whether instructions can be selected for the operation. -/
def Operation.isSelectable : Operation → Bool
  | .atom _ | .global _ => true
  | .primitive .subscript [_, .const (.int index)] => index.toCount?.isSome
  | .primitive operator operands => operator != .subscript && operands.length == operator.arity
  | .call (.var _) _ => true
  | .call (.const _) _ => false
  | .allocate _ ty => ty.isTuple

/-- Whether instructions can be selected for the statement. -/
def Stmt.isSelectable : Stmt → Bool
  | .assign _ value => value.isSelectable
  | .branch operator _ _ _ _ => operator.isComparison
  | .tailCall (.var _) _ => true
  | .tailCall (.const _) _ => false
  | _ => true

/-- Statements that can stand in a block: the last one, and no other, passes control on, to labels
that are known. -/
inductive IsCode (known : Name → Prop) : List Stmt → Prop where
  | last {st : Stmt} (hterminator : st.isTerminator = true) (hselectable : st.isSelectable = true)
      (hknown : ∀ label ∈ st.successors, known label) : IsCode known [st]
  | cons {st : Stmt} {code : List Stmt} (hplain : st.isTerminator = false)
      (hselectable : st.isSelectable = true) (hcode : IsCode known code) :
    IsCode known (st :: code)

/-- The blocks hold code that knows its labels. -/
def AreBlocks (known : Name → Prop) (blocks : List Block) : Prop :=
  ∀ block ∈ blocks, IsCode known block.statements

/-- More labels may be known. -/
theorem IsCode.mono {known known' : Name → Prop} (hknown : ∀ label, known label → known' label)
    {code : List Stmt} (h : IsCode known code) : IsCode known' code := by
  induction h with
  | last hterminator hselectable hlabels =>
    exact .last hterminator hselectable fun label hlabel => hknown label (hlabels label hlabel)
  | cons hplain hselectable _ ih => exact .cons hplain hselectable ih

/-- A jump needs its label. -/
theorem isCode_goto {known : Name → Prop} {label : Name} :
    IsCode known [.goto label] ↔ known label := by
  refine ⟨fun h => ?_, fun h => .last rfl rfl (List.forall_mem_singleton.mpr h)⟩
  cases h with
  | last _ _ hknown => exact hknown label List.mem_cons_self
  | cons hplain => cases hplain

/-! ## Making blocks -/

section Building

variable {α β : Type}

/-- The first step of building a function. -/
theorem bind_of_ok {x : Building α} {f : α → Building β} {blocks blocks₁ : List Block}
    {s s₁ : NameSupply} {a : α} (h : x blocks s = .ok ((a, blocks₁), s₁)) :
    (x >>= f) blocks s = f a blocks₁ s₁ := by
  change (x blocks >>= fun p => f p.1 p.2) s = _
  rw [Stateful.bind_of_ok h]

/-- A step that adds no blocks. -/
theorem liftM_of_ok {x : Except CompileError α} {a : α} (h : x = .ok a) (blocks : List Block)
    (s : NameSupply) : (liftM x : Building α) blocks s = .ok ((a, blocks), s) := by
  rw [h]
  rfl

/-- The computation succeeds and adds blocks.  Once all labels of blocks are known, along with what
it needs to be known, the blocks it added are code, and its value is as it should be. -/
def Builds (m : Building α) (needs : (Name → Prop) → Prop) (gives : (Name → Prop) → α → Prop) :
    Prop :=
  ∀ blocks s, ∃ a blocks' s', m blocks s = .ok ((a, blocks'), s') ∧
    (∀ block ∈ blocks, block ∈ blocks') ∧
    ∀ known : Name → Prop, (∀ block ∈ blocks', known block.label) → needs known →
      AreBlocks known blocks → gives known a ∧ AreBlocks known blocks'

namespace Builds

variable {needs needs' : (Name → Prop) → Prop} {gives gives₁ : (Name → Prop) → α → Prop}
  {gives' : (Name → Prop) → β → Prop}

/-- A result adds nothing. -/
theorem pure {a : α} (h : ∀ known, needs known → gives known a) :
    Builds (Pure.pure a) needs gives := fun blocks s =>
  ⟨a, blocks, s, rfl, fun _ hblock => hblock, fun known _ hneeds hblocks =>
    ⟨h known hneeds, hblocks⟩⟩

/-- One step after another. -/
theorem bind {m : Building α} {f : α → Building β} (hm : Builds m needs gives)
    (hf : ∀ a, Builds (f a) (fun known => needs known ∧ gives known a) gives') :
    Builds (m >>= f) needs gives' := by
  intro blocks s
  obtain ⟨a, blocks₁, s₁, ha, hsub, hcode⟩ := hm blocks s
  obtain ⟨b, blocks₂, s₂, hb, hsub', hcode'⟩ := hf a blocks₁ s₁
  refine ⟨b, blocks₂, s₂, (bind_of_ok ha).trans hb, fun block h => hsub' _ (hsub _ h), ?_⟩
  intro known hknown hneeds hblocks
  obtain ⟨hgives, hblocks₁⟩ :=
    hcode known (fun block h => hknown block (hsub' block h)) hneeds hblocks
  exact hcode' known hknown ⟨hneeds, hgives⟩ hblocks₁

/-- More may be needed, and less given. -/
theorem mono {m : Building α} (h : Builds m needs gives)
    (hneeds : ∀ known, needs' known → needs known)
    (hgives : ∀ known a, gives known a → gives₁ known a) : Builds m needs' gives₁ := by
  intro blocks s
  obtain ⟨a, blocks', s', ha, hsub, hcode⟩ := h blocks s
  refine ⟨a, blocks', s', ha, hsub, fun known hknown hneeds' hblocks => ?_⟩
  obtain ⟨hgives', hblocks'⟩ := hcode known hknown (hneeds known hneeds') hblocks
  exact ⟨hgives known a hgives', hblocks'⟩

/-- A block that is added makes its label known. -/
theorem addBlock (label : Name) (code : List Stmt) :
    Builds (Flow.addBlock label code) (IsCode · code) fun known _ => known label := by
  intro blocks s
  refine ⟨(), ⟨label, code⟩ :: blocks, s, rfl, fun _ => List.mem_cons_of_mem _, ?_⟩
  intro known hknown hcode hblocks
  exact ⟨hknown _ List.mem_cons_self, List.forall_mem_cons.mpr ⟨hcode, hblocks⟩⟩

/-- So does one with a new label. -/
theorem newBlock (code : List Stmt) :
    Builds (Flow.newBlock code) (IsCode · code) fun known label => known label := by
  intro blocks s
  obtain ⟨⟨⟩, blocks', s', hblocks', hsub, hcode⟩ :=
    addBlock (NameSupply.nameAt "block" (s.issued + 1)) code blocks ⟨s.issued + 1⟩
  refine ⟨_, blocks', s', ?_, hsub, hcode⟩
  have hfresh : Flow.fresh "block" blocks s = .ok ((NameSupply.nameAt "block" (s.issued + 1),
    blocks), ⟨s.issued + 1⟩) := rfl
  rw [Flow.newBlock, bind_of_ok hfresh, bind_of_ok hblocks']
  rfl

/-- A label for code is known. -/
theorem labelFor (code : List Stmt) :
    Builds (Flow.labelFor code) (IsCode · code) fun known label => known label := by
  unfold Flow.labelFor
  split
  · exact pure fun known h => isCode_goto.mp h
  · exact newBlock code

end Builds

end Building

end Flow

open TupleLang.Flow (IsCode Builds)

/-! ## Expressions -/

/-- The atom as an expression. -/
def Flow.Atom.toExpr : Flow.Atom → Expr
  | .var name => .var name
  | .const value => .const value

/-- Atomic expressions are atoms. -/
theorem Expr.exists_toAtom {e : Expr} (h : e.isAtomic = true) : ∃ atom, e.toAtom = .ok atom := by
  cases e with
  | var name => exact ⟨_, rfl⟩
  | const value => exact ⟨_, rfl⟩
  | _ => cases h

/-- So are lists of them. -/
theorem Expr.exists_mapM_toAtom {es : List Expr} (h : es.all Expr.isAtomic = true) :
    ∃ atoms, es.mapM Expr.toAtom = .ok atoms ∧ atoms.length = es.length := by
  induction es with
  | nil => exact ⟨[], rfl, rfl⟩
  | cons e es ih =>
    rw [List.all_cons, Bool.and_eq_true] at h
    obtain ⟨atom, hatom⟩ := Expr.exists_toAtom h.1
    obtain ⟨atoms, hatoms, hlength⟩ := ih h.2
    refine ⟨atom :: atoms, ?_, congrArg (· + 1) hlength⟩
    rw [List.mapM_cons, hatom, hatoms]
    rfl

/-- The same as a step of building. -/
theorem Expr.exists_mapM_liftM_toAtom {es : List Expr} (h : es.all Expr.isAtomic = true) :
    ∃ atoms,
      es.mapM (liftM ∘ Expr.toAtom) = (Pure.pure atoms : Flow.Building (List Flow.Atom)) := by
  induction es with
  | nil => exact ⟨[], rfl⟩
  | cons e es ih =>
    rw [List.all_cons, Bool.and_eq_true] at h
    obtain ⟨atom, hatom⟩ := Expr.exists_toAtom h.1
    obtain ⟨atoms, hatoms⟩ := ih h.2
    refine ⟨atom :: atoms, ?_⟩
    rw [List.mapM_cons, Function.comp_apply, hatom, hatoms]
    rfl

namespace Typing

variable {context : Context} {Γ Γ' : VariableTypes} {e : Expr} {ty : Ty} {next : List Flow.Stmt}

/-- There is a type for each expression. -/
theorem Checks.length_eq {es : List Expr} {tys : List Ty}
    (h : Checks context (.exprs es) Γ (.tys tys) Γ') : tys.length = es.length :=
  length_inferList h.complete

/-- An atom with the type of a function is a variable. -/
theorem Checks.exists_eq_var {tys : List Ty}
    (h : Checks context (.expr e) Γ (.ty (.function tys ty)) Γ') (hatomic : e.isAtomic = true) :
    ∃ name, e = .var name := by
  cases h with
  | known | function => exact ⟨_, rfl⟩
  | _ => cases hatomic

/-- A flat expression without statements and literals is an operation for which instructions can
be selected. -/
theorem Checks.exists_toOperation (h : Checks context (.expr e) Γ (.ty ty) Γ')
    (hsimple : e.isSimple = true) (htuple : e.isTuple = false) :
    ∃ operation, e.toOperation = .ok operation ∧ operation.isSelectable = true := by
  rw [Expr.isSimple, Bool.and_eq_true] at hsimple
  obtain ⟨hflat, hbegin⟩ := hsimple
  have hprimitive {operator : Operator} {operands : List Expr}
      (hoperands : operands.all Expr.isAtomic = true) (hoperator : operator ≠ .subscript)
      (hlength : operands.length = operator.arity) :
      ∃ operation, (Expr.primitive operator operands).toOperation = .ok operation ∧
        operation.isSelectable = true := by
    obtain ⟨atoms, hatoms, hcount⟩ := Expr.exists_mapM_toAtom hoperands
    refine ⟨.primitive operator atoms, ?_, ?_⟩
    · rw [Expr.toOperation, hatoms]
      rfl
    · rw [Flow.Operation.isSelectable]
      · simp [hoperator, hcount, hlength]
      · exact fun _ _ he => absurd he hoperator
  cases h with
  | known | function => exact ⟨_, rfl, rfl⟩
  | int | bool => exact ⟨_, rfl, rfl⟩
  | @subscript _ _ tuple index fields _ ht hfield =>
    rw [Expr.isFlat, List.all_cons, Bool.and_eq_true] at hflat
    obtain ⟨atom, hatom⟩ := Expr.exists_toAtom hflat.1
    refine ⟨.primitive .subscript [atom, .const (.int index)], ?_, ?_⟩
    · rw [Expr.toOperation, List.mapM_cons, hatom]
      rfl
    · rw [Flow.Operation.isSelectable]
      cases hcount : index.toCount? with
      | none =>
        rw [hcount] at hfield
        cases hfield
      | some count => rfl
  | @shortCircuit _ _ _ operator lhs rhs hoperator _ _ =>
    refine hprimitive hflat ?_ ?_
    · rintro rfl
      cases hoperator
    · cases operator with
      | and | or => rfl
      | _ => cases hoperator
  | primitive hstrict hs hty =>
    refine hprimitive hflat ?_ (hs.length_eq.symm.trans (length_of_resultType? hty))
    rintro rfl
    simp [Operator.resultType?] at hty
  | call ht hs =>
    rw [Expr.isFlat, Bool.and_eq_true] at hflat
    obtain ⟨name, rfl⟩ := ht.exists_eq_var hflat.1
    obtain ⟨atoms, hatoms, -⟩ := Expr.exists_mapM_toAtom hflat.2
    refine ⟨.call (.var name) atoms, ?_, rfl⟩
    rw [Expr.toOperation, hatoms]
    rfl
  | tuple => cases htuple
  | «begin» => cases hbegin
  | global => exact ⟨_, rfl, rfl⟩
  | allocate => exact ⟨_, rfl, rfl⟩

/-! ## Branches -/

/-- What a branch needs to be known. -/
def BranchNeeds (positive negative : Name) (known : Name → Prop) : Prop :=
  known positive ∧ known negative

/-- A branch on an atom. -/
theorem Checks.builds_toBranch_of_isAtomic (h : Checks context (.expr e) Γ (.ty .bool) Γ')
    (hatomic : e.isAtomic = true) (positive negative : Name) :
    Builds (e.toBranch positive negative) (BranchNeeds positive negative) IsCode := by
  cases h with
  | known | function =>
    refine .pure fun known hknown => .last rfl rfl ?_
    exact List.forall_mem_cons.mpr ⟨hknown.1, List.forall_mem_singleton.mpr hknown.2⟩
  | bool value =>
    refine .pure fun known hknown => Flow.isCode_goto.mpr ?_
    cases value with
    | true => exact hknown.1
    | false => exact hknown.2
  | _ => cases hatomic

/-- A comparison decides a branch. -/
theorem builds_toBranch_comparison {operator : Operator} {lhs rhs : Expr}
    (hoperator : operator.isComparison = true) (hl : lhs.isAtomic = true)
    (hr : rhs.isAtomic = true) (positive negative : Name) :
    Builds ((Expr.primitive operator [lhs, rhs]).toBranch positive negative)
      (BranchNeeds positive negative) IsCode := by
  obtain ⟨left, hleft⟩ := Expr.exists_toAtom hl
  obtain ⟨right, hright⟩ := Expr.exists_toAtom hr
  have hbranch : Builds
      (Pure.pure [.branch operator left right positive negative] : Flow.Building (List Flow.Stmt))
      (BranchNeeds positive negative) IsCode := by
    refine .pure fun known hknown => .last rfl hoperator ?_
    exact List.forall_mem_cons.mpr ⟨hknown.1, List.forall_mem_singleton.mpr hknown.2⟩
  have heq : (Expr.primitive operator [lhs, rhs]).toBranch positive negative =
      Pure.pure [.branch operator left right positive negative] := by
    cases operator with
    | eq | ne | lt | lte | gt | gte =>
      rw [Expr.toBranch, hleft, hright]
      · rfl
      · exact nofun
      · exact nofun
    | _ => cases hoperator
  rw [heq]
  exact hbranch

/-- A test over atoms decides a branch. -/
theorem Checks.builds_toBranch_of_isSimpleTest (h : Checks context (.expr e) Γ (.ty .bool) Γ')
    (htest : e.isSimpleTest = true) (positive negative : Name) :
    Builds (e.toBranch positive negative) (BranchNeeds positive negative) IsCode := by
  rw [Expr.isSimpleTest, Bool.and_eq_true] at htest
  obtain ⟨htest, hflat⟩ := htest
  by_cases hatomic : e.isAtomic = true
  · exact h.builds_toBranch_of_isAtomic hatomic positive negative
  cases h with
  | @shortCircuit _ _ _ operator lhs rhs hoperator hl hr =>
    rw [Expr.isFlat, List.all_cons, List.all_cons, Bool.and_eq_true, Bool.and_eq_true] at hflat
    have hright := hr.builds_toBranch_of_isAtomic hflat.2.1 positive negative
    have hlabel (code : List Flow.Stmt) : Builds (Flow.labelFor code)
        (fun known => BranchNeeds positive negative known ∧ IsCode known code) _ :=
      (Builds.labelFor code).mono (fun _ h => h.2) fun _ _ h => h
    cases operator with
    | and =>
      rw [Expr.toBranch]
      refine hright.bind fun code => (hlabel code).bind fun label => ?_
      exact (hl.builds_toBranch_of_isAtomic hflat.1 label negative).mono
        (fun _ h => ⟨h.2, h.1.1.2⟩) fun _ _ h => h
    | or =>
      rw [Expr.toBranch]
      refine hright.bind fun code => (hlabel code).bind fun label => ?_
      exact (hl.builds_toBranch_of_isAtomic hflat.1 positive label).mono
        (fun _ h => ⟨h.1.1.1, h.2⟩) fun _ _ h => h
    | _ => cases hoperator
  | @primitive _ _ operator operands tys _ hstrict hs hty =>
    have hlength := hs.length_eq.symm.trans (length_of_resultType? hty)
    rw [Expr.isTest, hstrict, Bool.or_false, Bool.or_eq_true, beq_iff_eq] at htest
    rcases htest with hcomparison | rfl
    · have harity : operator.arity = 2 := by
        cases operator <;> first | rfl | cases hcomparison
      obtain ⟨lhs, rhs, rfl⟩ := List.length_eq_two.mp (hlength.trans harity)
      rw [Expr.isFlat, List.all_cons, List.all_cons, Bool.and_eq_true, Bool.and_eq_true] at hflat
      exact builds_toBranch_comparison hcomparison hflat.1 hflat.2.1 positive negative
    · obtain ⟨operand, rfl⟩ := List.length_eq_one_iff.mp hlength
      cases hs with
      | @exprsCons _ _ _ _ _ ty _ hoperand hnil =>
        cases hnil
        cases ty with
        | bool =>
          rw [Expr.isFlat, List.all_cons, Bool.and_eq_true] at hflat
          rw [Expr.toBranch]
          exact (hoperand.builds_toBranch_of_isAtomic hflat.1 negative positive).mono
            (fun _ h => ⟨h.2, h.1⟩) fun _ _ h => h
        | _ => cases hty
  | known | function | bool => exact absurd rfl hatomic
  | _ => cases htest

/-! ## Statements -/

/-- What becomes of a task in normal form without literals that follows the rules. -/
def FlowsTyped : Task → Verdict → Prop
  | .stmt st, _ => st.isNormal false = true → ∀ next, Builds (st.toFlow next) (IsCode · next) IsCode
  | .block ss, _ => Stmt.areNormal false ss = true → ∀ next,
    Builds (Stmt.toFlowBlock next ss) (IsCode · next) IsCode
  | .expr (.begin ss value), .ty .bool => Stmt.areNormal false ss = true →
    value.isSimpleTest = true → ∀ positive negative,
    Builds ((Expr.begin ss value).toBranch positive negative) (BranchNeeds positive negative) IsCode
  | _, _ => True

/-- A statement that only puts one statement before the code after it. -/
theorem builds_cons {st : Stmt} (first : Flow.Stmt) (h : st.toFlow next = Pure.pure (first :: next))
    (hplain : first.isTerminator = false) (hselectable : first.isSelectable = true) :
    Builds (st.toFlow next) (IsCode · next) IsCode := by
  rw [h]
  exact .pure fun known hnext => .cons hplain hselectable hnext

/-- Assignments build code. -/
theorem builds_assign {target : Name} {value : Expr}
    (hvalue : Checks context (.expr value) Γ (.ty ty) Γ')
    (hnormal : (Stmt.assign target value).isNormal false = true) :
    Builds ((Stmt.assign target value).toFlow next) (IsCode · next) IsCode := by
  rw [Stmt.isNormal, Bool.and_eq_true, Bool.false_or, Bool.not_eq_true'] at hnormal
  obtain ⟨operation, hoperation, hselectable⟩ := hvalue.exists_toOperation hnormal.1 hnormal.2
  refine builds_cons (.assign target operation) ?_ rfl hselectable
  rw [Stmt.toFlow, hoperation]
  rfl

/-- A returned value ends the code; what would follow it is dropped. -/
theorem builds_ret {value : Expr} (hvalue : Checks context (.expr value) Γ (.ty ty) Γ')
    (hnormal : (Stmt.ret value).isNormal false = true) :
    Builds ((Stmt.ret value).toFlow next) (IsCode · next) IsCode := by
  rw [Stmt.isNormal, Bool.or_eq_true, Bool.and_eq_true] at hnormal
  cases value with
  | var name | const value => exact .pure fun known _ => .last rfl rfl (List.forall_mem_nil _)
  | call target arguments =>
    cases hvalue with
    | call ht hs =>
      rcases hnormal with hatomic | ⟨-, hflat⟩
      · cases hatomic
      · rw [Expr.isFlat, Bool.and_eq_true] at hflat
        obtain ⟨name, rfl⟩ := ht.exists_eq_var hflat.1
        obtain ⟨atoms, hatoms⟩ := Expr.exists_mapM_liftM_toAtom hflat.2
        have heq : (Stmt.ret (.call (.var name) arguments)).toFlow next =
            Pure.pure [.tailCall (.var name) atoms] := by
          rw [Stmt.toFlow, hatoms]
          rfl
        rw [heq]
        exact .pure fun known _ => .last rfl rfl (List.forall_mem_nil _)
  | _ => rcases hnormal with hatomic | ⟨hcall, -⟩ <;> first | cases hatomic | cases hcall

/-- The block of a loop's test is there only once the body is done, so while the body is built its
label is not known yet. -/
theorem builds_whileDo {condition : Expr} {body : List Stmt}
    (hcondition : ∀ positive negative, Builds (condition.toBranch positive negative)
      (BranchNeeds positive negative) IsCode)
    (hbody : ∀ next, Builds (Stmt.toFlowBlock next body) (IsCode · next) IsCode) :
    Builds ((Stmt.whileDo condition body).toFlow next) (IsCode · next) IsCode := by
  intro blocks s
  obtain ⟨join, blocks₁, s₁, hjoin, hsub₁, hcode₁⟩ := Builds.labelFor next blocks s
  let test := NameSupply.nameAt "loop" (s₁.issued + 1)
  obtain ⟨code, blocks₂, s₂, hcode, hsub₂, hcode₂⟩ :=
    hbody [.goto test] blocks₁ ⟨s₁.issued + 1⟩
  obtain ⟨label, blocks₃, s₃, hlabel, hsub₃, hcode₃⟩ := Builds.newBlock code blocks₂ s₂
  obtain ⟨branch, blocks₄, s₄, hbranch, hsub₄, hcode₄⟩ := hcondition label join blocks₃ s₃
  have hfresh : Flow.fresh "loop" blocks₁ s₁ = .ok ((test, blocks₁), ⟨s₁.issued + 1⟩) := rfl
  refine ⟨[.goto test], ⟨test, branch⟩ :: blocks₄, s₄, ?_, ?_, ?_⟩
  · rw [Stmt.toFlow, Flow.bind_of_ok hjoin, Flow.bind_of_ok hfresh, Flow.bind_of_ok hcode,
      Flow.bind_of_ok hlabel, Flow.bind_of_ok hbranch]
    rfl
  · exact fun block h => List.mem_cons_of_mem _ (hsub₄ _ (hsub₃ _ (hsub₂ _ (hsub₁ _ h))))
  · intro known hknown hnext hblocks
    obtain ⟨htest, hknown₄⟩ := List.forall_mem_cons.mp hknown
    have hknown₃ := fun block h => hknown₄ block (hsub₄ block h)
    have hknown₂ := fun block h => hknown₃ block (hsub₃ block h)
    have hknown₁ := fun block h => hknown₂ block (hsub₂ block h)
    obtain ⟨hjoin, hblocks₁⟩ := hcode₁ known hknown₁ hnext hblocks
    obtain ⟨hcode, hblocks₂⟩ := hcode₂ known hknown₂ (Flow.isCode_goto.mpr htest) hblocks₁
    obtain ⟨hlabel, hblocks₃⟩ := hcode₃ known hknown₃ hcode hblocks₂
    obtain ⟨hbranch, hblocks₄⟩ := hcode₄ known hknown₄ ⟨hlabel, hjoin⟩ hblocks₃
    exact ⟨Flow.isCode_goto.mpr htest, List.forall_mem_cons.mpr ⟨hbranch, hblocks₄⟩⟩

/-- Statements in normal form without literals that follow the rules become code. -/
theorem Checks.flowsTyped {task : Task} {verdict : Verdict}
    (h : Checks context task Γ verdict Γ') : FlowsTyped task verdict := by
  induction h with
  | @«begin» _ _ _ statements value ty _ hv ihs _ =>
    cases ty with
    | bool =>
      intro hnormal htest positive negative
      rw [Expr.toBranch]
      refine (hv.builds_toBranch_of_isSimpleTest htest positive negative).bind fun code => ?_
      exact (ihs hnormal code).mono (fun _ h => h.2) fun _ _ h => h
    | _ => trivial
  | assignNew _ _ hv _ => exact fun hnormal next => builds_assign hv hnormal
  | assign _ _ hv _ => exact fun hnormal next => builds_assign hv hnormal
  | print hv _ =>
    intro hnormal next
    obtain ⟨atom, hatom⟩ := Expr.exists_toAtom hnormal
    refine builds_cons (.print atom) ?_ rfl rfl
    rw [Stmt.toFlow, hatom]
    rfl
  | @ifElse _ _ _ _ condition positive negative hc _ _ _ ihp ihn =>
    intro hnormal next
    rw [Stmt.isNormal, Bool.and_eq_true, Bool.and_eq_true] at hnormal
    rw [Stmt.toFlow]
    refine (Builds.labelFor next).bind fun join => ?_
    refine .bind ((ihp hnormal.1.2 [.goto join]).mono (fun _ h => Flow.isCode_goto.mpr h.2)
      fun _ _ h => h) fun code => ?_
    refine .bind ((Builds.newBlock code).mono (fun _ h => h.2) fun _ _ h => h) fun positive' => ?_
    refine .bind ((ihn hnormal.2 [.goto join]).mono (fun _ h => Flow.isCode_goto.mpr h.1.1.2)
      fun _ _ h => h) fun code' => ?_
    refine .bind ((Builds.newBlock code').mono (fun _ h => h.2) fun _ _ h => h) fun negative' => ?_
    exact (hc.builds_toBranch_of_isSimpleTest hnormal.1.1 positive' negative').mono
      (fun _ h => ⟨h.1.1.2, h.2⟩) fun _ _ h => h
  | ret _ hv => exact fun hnormal next => builds_ret hv hnormal
  | collect bytes => exact fun _ next => builds_cons (.collect bytes) rfl rfl rfl
  | @setField _ _ tuple index value _ _ _ _ hv _ =>
    intro hnormal next
    obtain ⟨atom, hatom⟩ := Expr.exists_toAtom hnormal
    refine builds_cons (.setField tuple index atom) ?_ rfl rfl
    rw [Stmt.toFlow, hatom]
    rfl
  | blockNil => exact fun _ next => .pure fun known h => h
  | blockCons _ _ ihs ihr =>
    intro hnormal next
    rw [Stmt.areNormal, Bool.and_eq_true] at hnormal
    rw [Stmt.toFlowBlock]
    refine (ihr hnormal.2 next).bind fun rest => ?_
    exact (ihs hnormal.1 rest).mono (fun _ h => h.2) fun _ _ h => h
  | @whileDo _ _ _ condition body hc _ ihc ihb =>
    intro hnormal next
    cases condition with
    | «begin» statements value =>
      simp only [Stmt.isNormal, Bool.and_eq_true] at hnormal
      exact builds_whileDo (ihc hnormal.1.1.2 hnormal.1.2) (ihb hnormal.2)
    | _ =>
      simp only [Stmt.isNormal, Bool.and_eq_true] at hnormal
      exact builds_whileDo (hc.builds_toBranch_of_isSimpleTest hnormal.1) (ihb hnormal.2)
  | _ => trivial

end Typing

namespace Flow

/-- The blocks of the function hold code that continues at blocks of the function. -/
def Function.IsClosed (function : Function) : Prop :=
  AreBlocks (· ∈ function.labels) function.blocks

/-- All functions of the program are closed. -/
def Program.IsClosed (program : Program) : Prop :=
  ∀ function ∈ program.functions, function.IsClosed

/-- The last statement of code, and no other, passes control on, to known labels. -/
theorem IsCode.validate {labels : List Name} {code : List Stmt} (h : IsCode (· ∈ labels) code)
    (function label : Name) : Block.validate function labels ⟨label, code⟩ = .ok () := by
  have hlast : ∃ last, code.getLast? = some last ∧ last.isTerminator = true ∧
      code.dropLast.any Stmt.isTerminator = false ∧
      last.successors.find? (!labels.contains ·) = none := by
    induction h with
    | last hterminator _ hknown =>
      refine ⟨_, rfl, hterminator, rfl, List.find?_eq_none.mpr fun label hlabel => ?_⟩
      simpa using hknown label hlabel
    | @cons st code hplain _ hcode ih =>
      obtain ⟨last, hlast, hterminator, hothers, hknown⟩ := ih
      have hne : code ≠ [] := by
        rintro rfl
        cases hlast
      refine ⟨last, ?_, hterminator, ?_, hknown⟩
      · rw [List.getLast?_cons_of_ne_nil hne, hlast]
      · rw [List.dropLast_cons_of_ne_nil hne, List.any_cons, hplain, hothers]
        rfl
  obtain ⟨last, hlast, hterminator, hothers, hknown⟩ := hlast
  simp only [Block.validate, hlast, hterminator, hothers, hknown]
  rfl

/-- A check that passes for each member. -/
theorem forM_eq_ok {ε α : Type} {f : α → Except ε Unit} {as : List α}
    (h : ∀ a ∈ as, f a = .ok ()) : as.forM f = .ok () := by
  induction as with
  | nil => rfl
  | cons a as ih =>
    obtain ⟨ha, has⟩ := List.forall_mem_cons.mp h
    change (f a >>= fun _ => as.forM f) = .ok ()
    rw [ha]
    exact ih has

/-- A program whose functions are closed is well formed. -/
theorem Program.IsClosed.validate {program : Program} (h : program.IsClosed) :
    program.validate = .ok () :=
  forM_eq_ok fun function hfunction => forM_eq_ok fun block hblock =>
    (h function hfunction block hblock).validate function.name block.label

end Flow

namespace Typing

variable {context : Context} {Γ Γ' : VariableTypes}

/-- The body of a function becomes a closed function. -/
theorem Checks.exists_functionOf {body : List Stmt}
    (h : Checks context (.block body) Γ .fine Γ') (hnormal : Stmt.areNormal false body = true)
    (environment : TypeEnvironment) (name : Name) (parameters : List Name) (s : NameSupply) :
    ∃ function s', Flow.functionOf environment name parameters body s = .ok (function, s') ∧
      function.IsClosed := by
  obtain ⟨start, blocks, s', hstart, -, hcode⟩ :=
    h.flowsTyped hnormal [.ret (.const (.int 0))] [] s
  refine ⟨⟨name, parameters, ⟨name.startLabel, start⟩ :: blocks,
    (environment.variablesOf? name).getD ∅⟩, s', ?_, ?_⟩
  · rw [Flow.functionOf, StateT.run, Stateful.bind_of_ok hstart]
    rfl
  · have hret : IsCode (· ∈ name.startLabel :: blocks.map Flow.Block.label)
        [.ret (.const (.int 0))] := .last rfl rfl (List.forall_mem_nil _)
    obtain ⟨hstart, hblocks⟩ := hcode _ (fun block hblock =>
      List.mem_cons_of_mem _ (List.mem_map_of_mem hblock)) hret (List.forall_mem_nil _)
    exact List.forall_mem_cons.mpr ⟨hstart, hblocks⟩

/-- A program in normal form without literals that follows the rules becomes a closed control-flow
program. -/
theorem ProgramChecks.toFlow {program : Program} {environment : TypeEnvironment}
    (h : ProgramChecks true program environment) (hnormal : program.isNormal false = true)
    (s : NameSupply) :
    ∃ flow s', program.toFlow environment s = .ok (flow, s') ∧ flow.IsClosed := by
  obtain ⟨-, final, hchecks, -⟩ := h
  have hfunctions : ∀ f ∈ program.functions, ∀ s, ∃ function s',
      Flow.functionOf environment f.name (f.parameters.map Prod.fst) f.body s =
        .ok (function, s') ∧ function.IsClosed := by
    intro f hf s
    obtain ⟨known, -, hbody⟩ := hchecks.functionChecks f hf
    exact hbody.exists_functionOf (program.areNormal_body hnormal hf) environment f.name
      (f.parameters.map Prod.fst) s
  obtain ⟨functions, s₁, hmapM, hcloseds⟩ := Stateful.exists_mapM hfunctions s
  have hmain : Stmt.areNormal false (program.statements.filter (·.function?.isNone)) = true :=
    Stmt.areNormal_iff.mpr fun st hst =>
      Stmt.areNormal_iff.mp hnormal st (List.mem_of_mem_filter hst)
  obtain ⟨entry, s₂, hentry, hclosed⟩ :=
    hchecks.checks_filter.exists_functionOf hmain environment Name.entryPoint [] s₁
  refine ⟨⟨functions ++ [entry], .ofList environment.functions.keys⟩, s₂, ?_, ?_⟩
  · rw [Program.toFlow, Stateful.bind_of_ok hmapM, Stateful.bind_of_ok hentry]
    rfl
  · exact List.forall_mem_append.mpr ⟨hcloseds, List.forall_mem_singleton.mpr hclosed⟩

end Typing

end TupleLang
