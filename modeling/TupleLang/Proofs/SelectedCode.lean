import TupleLang.Proofs.CodeShapes
import TupleLang.Proofs.FlowForm

/-!
# Instructions of closed programs

Instructions can be selected for every closed control-flow program
(`Flow.Program.IsClosed.select`), and the functions that result are closed again
(`X86.Function.IsClosed`): all their jumps go to their own blocks or to their conclusion.

The first part shows that every statement of such a program has code.  Where that code jumps to is
read off the instructions that it may have (`Selection.Emits.eq_or_mem_of_mem_jumps`).
-/

namespace TupleLang

open Stateful
open X86 (Instruction Operand)

/-- The labels at which control may continue after an instruction, apart from the next one. -/
def X86.Instruction.jumps : Instruction → List Name
  | .jump label | .jumpIf _ label => [label]
  | _ => []

namespace Selection

variable {context : Context}

/-! ## Operands -/

/-- Every atom has an operand. -/
theorem exists_atom (context : Context) (a : Flow.Atom) (s : NameSupply) :
    ∃ code operand s', atom context a s = .ok ((code, operand), s') := by
  cases a with
  | const value =>
    cases value with
    | int value | bool value => exact ⟨[], _, s, rfl⟩
  | var name =>
    rw [atom]
    split
    · exact ⟨_, _, _, rfl⟩
    · exact ⟨[], _, s, rfl⟩

/-- All atoms of a list have operands. -/
theorem exists_atoms (context : Context) (as : List Flow.Atom) (s : NameSupply) :
    ∃ code operands s', atoms context as s = .ok ((code, operands), s') := by
  induction as generalizing s with
  | nil => exact ⟨[], [], s, rfl⟩
  | cons a as ih =>
    obtain ⟨code, operand, s₁, hatom⟩ := exists_atom context a s
    obtain ⟨code', operands, s₂, hatoms⟩ := ih s₁
    refine ⟨code ++ code', operand :: operands, s₂, ?_⟩
    rw [atoms, bind_of_ok hatom]
    dsimp only
    rw [bind_of_ok hatoms]
    rfl

/-! ## Operators -/

/-- Every operator but the subscript has code for as many operands as it takes. -/
theorem exists_primitive {operator : Operator} {operands : List Operand}
    (hoperator : operator ≠ .subscript) (hlength : operands.length = operator.arity)
    (destination : Operand) : ∃ code, primitive destination operator operands = some code := by
  cases operator with
  | neg | not =>
    obtain ⟨a, rfl⟩ := List.length_eq_one_iff.mp hlength
    exact ⟨_, rfl⟩
  | subscript => exact absurd rfl hoperator
  | sub =>
    obtain ⟨a, b, rfl⟩ := List.length_eq_two.mp hlength
    rw [primitive]
    split
    · exact ⟨_, rfl⟩
    · exact ⟨_, rfl⟩
  | _ =>
    obtain ⟨a, b, rfl⟩ := List.length_eq_two.mp hlength
    exact ⟨_, rfl⟩

/-- The operation of an assignment has code. -/
theorem exists_operator {operation : Operator} {operands : List Flow.Atom}
    (h : (Flow.Operation.primitive operation operands).isSelectable = true) (destination : Operand)
    (s : NameSupply) :
    ∃ code s', operator context destination operation operands s = .ok (code, s') := by
  by_cases hsubscript : ∃ tuple index,
      operation = .subscript ∧ operands = [tuple, .const (.int index)]
  · obtain ⟨tuple, index, rfl, rfl⟩ := hsubscript
    obtain ⟨code, tuple', s₁, hatom⟩ := exists_atom context tuple s
    rw [Flow.Operation.isSelectable] at h
    obtain ⟨count, hcount⟩ := Option.isSome_iff_exists.mp h
    refine ⟨code ++ [.movq tuple' r11, .movq (field count) destination], s₁, ?_⟩
    rw [operator]
    dsimp only
    rw [bind_of_ok hatom]
    dsimp only
    rw [hcount]
    rfl
  · have hother : ∀ tuple index, operation = .subscript →
        operands = [tuple, .const (.int index)] → False := fun tuple index ho hoperands =>
      hsubscript ⟨tuple, index, ho, hoperands⟩
    rw [Flow.Operation.isSelectable] at h
    · rw [Bool.and_eq_true, bne_iff_ne, beq_iff_eq] at h
      obtain ⟨code, operands', s₁, hatoms⟩ := exists_atoms context operands s
      have hlength : operands'.length = operands.length := (atoms_eq_ok hatoms).2.2
      obtain ⟨code', hprimitive⟩ := exists_primitive h.1 (hlength.trans h.2) destination
      refine ⟨code ++ code', s₁, ?_⟩
      unfold operator
      split
      · exact absurd rfl h.1
      · rw [bind_of_ok hatoms]
        dsimp only
        rw [hprimitive]
        rfl
    · exact hother

/-- A call of a variable has code. -/
theorem exists_call (context : Context) (name : Name) (arguments : List Flow.Atom)
    (s : NameSupply) : ∃ code s', call context (.var name) arguments s = .ok (code, s') := by
  obtain ⟨code, operands, s₁, hatoms⟩ := exists_atoms context arguments s
  unfold call
  dsimp only
  rw [bind_of_ok hatoms]
  dsimp only
  split
  · exact ⟨_, s₁, rfl⟩
  · exact ⟨_, s₁, rfl⟩

/-! ## Statements -/

/-- An assignment whose operation instructions can be selected for has code. -/
theorem exists_assignment {operation : Flow.Operation} (h : operation.isSelectable = true)
    (context : Context) (destination : Operand) (s : NameSupply) :
    ∃ code s', assignment context destination operation s = .ok (code, s') := by
  cases operation with
  | atom operand =>
    cases operand with
    | var name =>
      rw [assignment]
      split
      · exact ⟨_, s, rfl⟩
      · exact ⟨_, s, rfl⟩
    | const value =>
      obtain ⟨code, source, s₁, hatom⟩ := exists_atom context (.const value) s
      exact ⟨_, s₁, (bind_of_ok hatom).trans rfl⟩
  | primitive operation operands => exact exists_operator h destination s
  | call target arguments =>
    cases target with
    | var name =>
      obtain ⟨code, s₁, hcall⟩ := exists_call context name arguments s
      exact ⟨_, s₁, (bind_of_ok hcall).trans rfl⟩
    | const value => cases h
  | allocate bytes ty =>
    cases ty with
    | tuple fields => exact ⟨_, s, rfl⟩
    | _ => cases h
  | global name => exact ⟨_, s, rfl⟩

/-- A tail call of a variable has code, whether or not it stays a call. -/
theorem exists_tailCall (context : Context) (name : Name) (arguments : List Flow.Atom)
    (s : NameSupply) : ∃ code s', tailCall context (.var name) arguments s = .ok (code, s') := by
  unfold tailCall
  dsimp only
  split
  · obtain ⟨code, s₁, hcall⟩ := exists_call context name arguments s
    exact ⟨_, s₁, (bind_of_ok hcall).trans rfl⟩
  · obtain ⟨code, operands, s₁, hatoms⟩ := exists_atoms context arguments s
    split
    · rw [pure_bind, bind_of_ok hatoms]
      exact ⟨_, s₁, rfl⟩
    · rw [pure_bind, bind_of_ok hatoms]
      exact ⟨_, s₁, rfl⟩

/-- There is a condition for each comparison. -/
theorem exists_ofOperator? {operator : Operator} (h : operator.isComparison = true) :
    ∃ condition, X86.Condition.ofOperator? operator = some condition := by
  cases operator <;> first | exact ⟨_, rfl⟩ | cases h

/-- A statement that instructions can be selected for has code. -/
theorem exists_statement {st : Flow.Stmt} (h : st.isSelectable = true) (s : NameSupply) :
    ∃ code s', statement context st s = .ok (code, s') := by
  cases st with
  | assign target value => exact exists_assignment h context (.var target) s
  | print value | setField tuple index value | ret value =>
    obtain ⟨code, operand, s₁, hatom⟩ := exists_atom context value s
    exact ⟨_, s₁, (bind_of_ok hatom).trans rfl⟩
  | collect bytes | goto label => exact ⟨_, s, rfl⟩
  | branch operator lhs rhs positive negative =>
    obtain ⟨condition, hcondition⟩ := exists_ofOperator? h
    obtain ⟨code, left, s₁, hleft⟩ := exists_atom context lhs s
    obtain ⟨code', right, s₂, hright⟩ := exists_atom context rhs s₁
    refine ⟨code ++ code' ++ [.cmpq right left, .jumpIf condition positive, .jump negative], s₂, ?_⟩
    rw [statement, hcondition]
    dsimp only
    rw [bind_of_ok hleft]
    dsimp only
    rw [bind_of_ok hright]
    rfl
  | tailCall target arguments =>
    cases target with
    | var name => exact exists_tailCall context name arguments s
    | const value => cases h

/-- So do several of them. -/
theorem exists_statements {sts : List Flow.Stmt} (h : ∀ st ∈ sts, st.isSelectable = true)
    (s : NameSupply) : ∃ code s', statements context sts s = .ok (code, s') := by
  induction sts generalizing s with
  | nil => exact ⟨[], s, rfl⟩
  | cons st sts ih =>
    obtain ⟨hst, hsts⟩ := List.forall_mem_cons.mp h
    obtain ⟨code, s₁, hstatement⟩ := exists_statement hst s
    obtain ⟨code', s₂, hstatements⟩ := ih hsts s₁
    refine ⟨remark context st ++ code ++ code', s₂, ?_⟩
    rw [statements, bind_of_ok hstatement, bind_of_ok hstatements]
    rfl

/-- And so do the blocks that are made of them, whatever code the first one opens with. -/
theorem exists_blocks {blocks : List Flow.Block}
    (h : ∀ block ∈ blocks, ∀ st ∈ block.statements, st.isSelectable = true)
    (opening : List Instruction) (s : NameSupply) :
    ∃ blocks' s', Selection.blocks context opening blocks s = .ok (blocks', s') := by
  induction blocks generalizing opening s with
  | nil => exact ⟨[], s, rfl⟩
  | cons block blocks ih =>
    obtain ⟨hblock, hrest⟩ := List.forall_mem_cons.mp h
    obtain ⟨code, s₁, hstatements⟩ := exists_statements hblock s
    obtain ⟨blocks', s₂, hblocks⟩ := ih hrest [] s₁
    refine ⟨⟨block.label, opening ++ code⟩ :: blocks', s₂, ?_⟩
    rw [Selection.blocks, bind_of_ok hstatements, bind_of_ok hblocks]
    rfl

/-! ## Jumps -/

/-- The instructions jump to known labels only. -/
def JumpsTo (known : Name → Prop) (code : List Instruction) : Prop :=
  ∀ instruction ∈ code, ∀ label ∈ instruction.jumps, known label

/-- Instructions of a statement jump to the conclusion and to where the statement continues. -/
theorem Emits.eq_or_mem_of_mem_jumps {st : Flow.Stmt} {instruction : Instruction}
    (h : Emits context st instruction) {label : Name} (hlabel : label ∈ instruction.jumps) :
    label = context.conclusion ∨ label ∈ st.successors := by
  cases h with
  | operation hoperation =>
    cases instruction with
    | jump | jumpIf => cases hoperation
    | _ => cases hlabel
  | jump htarget =>
    cases List.mem_singleton.mp hlabel
    exact htarget
  | jumpIf condition htarget =>
    cases List.mem_singleton.mp hlabel
    exact .inr htarget
  | _ => cases hlabel

variable {known : Name → Prop}

/-- Statements of a closed block have code and continue at known labels. -/
theorem isSelectable_of_isCode {sts : List Flow.Stmt} (h : Flow.IsCode known sts) :
    ∀ st ∈ sts, st.isSelectable = true ∧ ∀ label ∈ st.successors, known label := by
  induction h with
  | last _ hselectable hknown => exact List.forall_mem_singleton.mpr ⟨hselectable, hknown⟩
  | @cons st code hplain hselectable _ ih =>
    -- only terminators continue elsewhere
    have hnone : st.successors = [] := by
      cases st <;> first | rfl | cases hplain
    refine List.forall_mem_cons.mpr ⟨⟨hselectable, ?_⟩, ih⟩
    rw [hnone]
    exact List.forall_mem_nil _

/-- The code of a closed block jumps to known labels, if the conclusion is one of them. -/
theorem IsCodeOf.jumpsTo {block : Flow.Block} {block' : X86.Block}
    (h : IsCodeOf context block block') (hblock : Flow.IsCode known block.statements)
    (hconclusion : known context.conclusion) : JumpsTo known block'.instructions := by
  obtain ⟨-, parameters, code, s, s', hcode, hinstructions⟩ := h
  rw [hinstructions]
  refine List.forall_mem_append.mpr ⟨?_, ?_⟩
  · rw [copyParameters, List.mapIdx_eq_zipIdx_map]
    exact List.forall_mem_map.mpr fun _ _ => List.forall_mem_nil _
  · refine forall_mem_statements (fun _ => List.forall_mem_nil _) ?_ hcode
    intro st hst instruction hemits label hlabel
    obtain rfl | hmem := hemits.eq_or_mem_of_mem_jumps hlabel
    · exact hconclusion
    · exact (isSelectable_of_isCode hblock st hst).2 label hmem

end Selection

/-- All jumps of the function go to its own blocks or to its conclusion. -/
def X86.Function.IsClosed (function : X86.Function) : Prop :=
  ∀ block ∈ function.blocks, Selection.JumpsTo
    (fun label => label = function.name.conclusionLabel ∨
      label ∈ function.blocks.map X86.Block.label) block.instructions

open Selection in
/-- Closed functions have code, and it is closed as well. -/
theorem Flow.Function.IsClosed.select {function : Flow.Function} (h : function.IsClosed)
    (config : Config) (functionNames : Std.ExtTreeSet Name) (s : NameSupply) :
    ∃ selected s', function.select config functionNames s = .ok (selected, s') ∧
      selected.IsClosed := by
  obtain ⟨blocks, s', hblocks⟩ := exists_blocks
    (fun block hblock st hst => (isSelectable_of_isCode (h block hblock) st hst).1)
    (copyParameters config.parameters function.parameters) s
  have hselect : function.select config functionNames s =
      .ok (⟨function.name, blocks, function.variableTypes, {}⟩, s') := by
    rw [Flow.Function.select, Stateful.bind_of_ok hblocks]
    rfl
  refine ⟨_, s', hselect, fun block hblock => ?_⟩
  have hcode := (Flow.Function.select_eq_ok hselect).2
  have hlabels : blocks.map X86.Block.label = function.labels :=
    map_eq_of_forall₂ (hcode.imp fun _ _ hcode => hcode.1)
  obtain ⟨source, hsource, hcodeOf⟩ := exists_of_forall₂ hcode hblock
  rw [hlabels]
  exact hcodeOf.jumpsTo ((h source hsource).mono fun _ => .inr) (.inl rfl)

/-- Closed programs have code, and the functions of it are closed as well. -/
theorem Flow.Program.IsClosed.select {program : Flow.Program} (h : program.IsClosed)
    (config : Config) (s : NameSupply) :
    ∃ selected s', program.select config s = .ok (selected, s') ∧
      ∀ function ∈ selected.functions, function.IsClosed := by
  obtain ⟨functions, s', hfunctions, hclosed⟩ := exists_mapM
    (fun function hfunction => (h function hfunction).select config program.functionNames) s
  refine ⟨⟨functions⟩, s', ?_, hclosed⟩
  rw [Flow.Program.select, Stateful.bind_of_ok hfunctions]
  rfl

end TupleLang
