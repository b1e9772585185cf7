import TupleLang.Proofs.Stateful
import TupleLang.X86.Selection

/-!
# Shapes of selected code

What the code of a statement looks like, for every statement that has code at all.  The operands of
atoms are constants and variables (`Operand.isValue`), and the code that provides them only loads
addresses of functions (`Selection.IsLoad`).  `Selection.Computes` lists the sequences that leave a
value in a variable, and `Selection.Shape` the code of whole statements.

`Selection.statement_shape` says that there are no other shapes, so that a property of selected
code has to be shown for each of these sequences only.  For a property of single instructions it is
enough to look at those that occur in them (`Selection.Shape.emits`).
-/

namespace TupleLang

open Stateful
open X86 (BinaryOperator Condition Instruction Operand Register)

/-- Whether the operand is a constant or a variable. -/
def X86.Operand.isValue : Operand → Bool
  | .immediate _ | .var _ => true
  | _ => false

/-- Whether the operator computes a new value of its destination from the old one. -/
def X86.BinaryOperator.isArithmetic : BinaryOperator → Bool
  | .addq | .subq | .imulq | .andq | .orq | .xorq => true
  | .cmpq | .movq | .movzbq | .leaq => false

/-- Whether the operand is a global or a label. -/
def X86.Operand.isGlobal : Operand → Bool
  | .global _ => true
  | _ => false

/-- Whether the instruction computes with its operands, and with nothing else but the stack. -/
def X86.Instruction.isOperation : Instruction → Bool
  | .binary operator _ _ => operator != .leaq
  | .negq _ | .set _ _ | .pushq _ => true
  | _ => false

/-- Values are no globals. -/
theorem X86.Operand.isGlobal_of_isValue {operand : Operand} (h : operand.isValue = true) :
    operand.isGlobal = false := by
  cases operand with
  | immediate | var => rfl
  | _ => cases h

namespace Selection

variable {context : Context} {s s' : NameSupply}

/-! ## Operands -/

/-- The instruction loads the address of a function into a variable. -/
def IsLoad (context : Context) (instruction : Instruction) : Prop :=
  ∃ function temporary, context.functionNames.contains function = true ∧
    instruction = .leaq (.global function) (.var temporary)

variable {code : List Instruction} {arguments : List Flow.Atom} {operands : List Operand}
  {value : Flow.Operation} {destination : Operand}

/-- Atoms have values as operands, after loads. -/
theorem atom_eq_ok {a : Flow.Atom} {operand : Operand}
    (h : atom context a s = .ok ((code, operand), s')) :
    (∀ instruction ∈ code, IsLoad context instruction) ∧ operand.isValue = true := by
  cases a with
  | const value =>
    cases value with
    | int value | bool value =>
      cases h
      exact ⟨List.forall_mem_nil _, rfl⟩
  | var name =>
    rw [atom] at h
    split at h
    · next hname =>
      obtain ⟨temporary, s₁, -, h⟩ := bind_eq_ok.mp h
      cases h
      exact ⟨List.forall_mem_singleton.mpr ⟨name, temporary, hname, rfl⟩, rfl⟩
    · cases h
      exact ⟨List.forall_mem_nil _, rfl⟩

/-- So do lists of atoms, one operand for each. -/
theorem atoms_eq_ok (h : atoms context arguments s = .ok ((code, operands), s')) :
    (∀ instruction ∈ code, IsLoad context instruction) ∧
      (∀ operand ∈ operands, operand.isValue = true) ∧ operands.length = arguments.length := by
  induction arguments generalizing s code operands with
  | nil =>
    cases h
    exact ⟨List.forall_mem_nil _, List.forall_mem_nil _, rfl⟩
  | cons first rest ih =>
    rw [atoms, bind_eq_ok] at h
    obtain ⟨⟨firstCode, operand⟩, s₁, hfirst, h⟩ := h
    obtain ⟨⟨restCode, restOperands⟩, s₂, hrest, h⟩ := bind_eq_ok.mp h
    cases h
    have hatom := atom_eq_ok hfirst
    obtain ⟨hcode, hoperands, hlength⟩ := ih hrest
    exact ⟨List.forall_mem_append.mpr ⟨hatom.1, hcode⟩,
      List.forall_mem_cons.mpr ⟨hatom.2, hoperands⟩, congrArg (· + 1) hlength⟩

/-! ## Values -/

/-- The code leaves a value in the destination, by way of at most the destination, `%rax` and
`%r11`. -/
inductive Computes (context : Context) (value : Flow.Operation) (destination : Operand) :
    List Instruction → Prop
  | move {source : Operand} (hsource : source.isValue = true) :
    Computes context value destination [.movq source destination]
  | global {name : Name} (hvalue : value = .global name) :
    Computes context value destination [.movq (.global name) destination]
  | address {name : Name} (hname : context.functionNames.contains name = true) :
    Computes context value destination [.leaq (.global name) destination]
  | negation {source : Operand} (hsource : source.isValue = true) :
    Computes context value destination (moveUnlessSame source destination ++ [.negq destination])
  | operation {operator : BinaryOperator} {lhs rhs : Operand}
      (hoperator : operator.isArithmetic = true) (hlhs : lhs.isValue = true)
      (hrhs : rhs.isValue = true) :
    Computes context value destination
      (moveUnlessSame lhs destination ++ [.binary operator rhs destination])
  | update {operator : BinaryOperator} {operand : Operand}
      (hoperator : operator.isArithmetic = true) (hoperand : operand.isValue = true) :
    Computes context value destination [.binary operator operand destination]
  | difference {operand : Operand} (hoperand : operand.isValue = true) :
    Computes context value destination [.negq destination, .addq operand destination]
  | comparison (condition : Condition) {lhs rhs : Operand} (hlhs : lhs.isValue = true)
      (hrhs : rhs.isValue = true) :
    Computes context value destination (comparison condition lhs rhs destination)
  | field {tuple : Operand} (index : Nat) (htuple : tuple.isValue = true) :
    Computes context value destination [.movq tuple r11, .movq (field index) destination]
  | allocation (bytes : Nat) (fields : List Ty) :
    Computes context value destination (allocate bytes fields destination)

/-- The code of a commutative operator computes. -/
theorem computes_commutative {operator : BinaryOperator} {lhs rhs : Operand}
    (hoperator : operator.isArithmetic = true) (hlhs : lhs.isValue = true)
    (hrhs : rhs.isValue = true) :
    Computes context value destination (commutative operator lhs rhs destination) := by
  unfold commutative
  split
  · exact .update hoperator hlhs
  · exact .operation hoperator hlhs hrhs

/-- The code of an operator computes. -/
theorem computes_primitive {operation : Operator}
    (hoperands : ∀ operand ∈ operands, operand.isValue = true)
    (h : primitive destination operation operands = some code) :
    Computes context value destination code := by
  have hpair {lhs rhs : Operand} (h : ∀ operand ∈ [lhs, rhs], operand.isValue = true) :
      lhs.isValue = true ∧ rhs.isValue = true := by simpa using h
  unfold primitive at h
  split at h
  · rename_i operand
    cases h
    exact .negation (hoperands operand List.mem_cons_self)
  · rename_i operand
    cases h
    exact .operation rfl (hoperands operand List.mem_cons_self) rfl
  · cases h
    exact computes_commutative rfl (hpair hoperands).1 (hpair hoperands).2
  · cases h
    exact computes_commutative rfl (hpair hoperands).1 (hpair hoperands).2
  · cases h
    exact computes_commutative rfl (hpair hoperands).1 (hpair hoperands).2
  · cases h
    exact computes_commutative rfl (hpair hoperands).1 (hpair hoperands).2
  · split at h
    · cases h
      exact .difference (hpair hoperands).1
    · cases h
      exact .operation rfl (hpair hoperands).1 (hpair hoperands).2
  · obtain ⟨condition, -, rfl⟩ := Option.map_eq_some_iff.mp h
    exact .comparison condition (hpair hoperands).1 (hpair hoperands).2
  · cases h

/-- The code of an operator is code that loads addresses of functions and then computes. -/
theorem operator_shape {operation : Operator} {operands : List Flow.Atom}
    (h : operator context destination operation operands s = .ok (code, s')) :
    ∃ loads rest, code = loads ++ rest ∧ (∀ instruction ∈ loads, IsLoad context instruction) ∧
      Computes context value destination rest := by
  unfold operator at h
  dsimp only at h
  split at h
  · rename_i index
    obtain ⟨⟨loads, tuple⟩, s₁, hatom, h⟩ := bind_eq_ok.mp h
    have hshape := atom_eq_ok hatom
    dsimp only at h
    cases hcount : index.toCount? with
    | none =>
      rw [hcount] at h
      cases h
    | some count =>
      rw [hcount] at h
      cases h
      exact ⟨loads, _, rfl, hshape.1, .field count hshape.2⟩
  · rw [bind_eq_ok] at h
    obtain ⟨⟨loads, values⟩, s₁, hatoms, h⟩ := h
    obtain ⟨hloads, hvalues, -⟩ := atoms_eq_ok hatoms
    dsimp only at h
    cases hrest : primitive destination operation values with
    | none =>
      rw [hrest] at h
      cases h
    | some rest =>
      rw [hrest] at h
      cases h
      exact ⟨loads, rest, rfl, hloads, computes_primitive hvalues hrest⟩

/-! ## Calls -/

/-- A word of padding below an odd number of arguments on the stack. -/
def padding (count : Nat) : List Instruction :=
  if count % 2 = 1 then [.subq (.immediate 8) rsp] else []

/-- Brings the arguments of a call to where the callee expects them. -/
def setUp (registers : List Register) (operands : List Operand) : List Instruction :=
  padding (operands.drop registers.length).length ++
    (operands.drop registers.length).reverse.map .pushq ++ passInRegisters registers operands

/-- Makes the address of the callee known, unless it is a label. -/
def approach (context : Context) (name : Name) : List Instruction :=
  if context.functionNames.contains name then [] else [.movq (.var name) rax]

/-- The call itself. -/
def transfer (context : Context) (name : Name) (used : List Register) : Instruction :=
  if context.functionNames.contains name then .callq name used else .callIndirect rax used

/-- Gives up the words of so many arguments, and their padding. -/
def release (count : Nat) : List Instruction :=
  if 0 < 8 * Word.ofCount (count + count % 2) then
    [.addq (.immediate (8 * Word.ofCount (count + count % 2))) rsp]
  else []

/-- The code of a call of a variable whose arguments have these operands. -/
def callCode (context : Context) (name : Name) (operands : List Operand) : List Instruction :=
  setUp context.config.parameters operands ++ approach context name ++
    transfer context name (context.config.parameters.take operands.length) ::
      release (operands.drop context.config.parameters.length).length

/-- The code of a call: loads, then the call of a variable. -/
theorem call_eq_ok {target : Flow.Atom} (h : call context target arguments s = .ok (code, s')) :
    ∃ name loads operands, target = .var name ∧
      atoms context arguments s = .ok ((loads, operands), s') ∧
      code = loads ++ callCode context name operands := by
  unfold call at h
  obtain ⟨⟨loads, operands⟩, s₁, hatoms, h⟩ := bind_eq_ok.mp h
  cases target with
  | const value =>
    obtain ⟨_, _, hrefused, -⟩ := bind_eq_ok.mp h
    cases hrefused
  | var name =>
    refine ⟨name, loads, operands, rfl, ?_⟩
    unfold callCode setUp padding approach transfer release
    dsimp only at h
    split at h
    · cases h
      exact ⟨hatoms, by simp [*]⟩
    · cases h
      exact ⟨hatoms, by simp [*]⟩

/-! ## Statements -/

/-- The code of a statement, remarks apart. -/
inductive Shape (context : Context) : Flow.Stmt → List Instruction → Prop
  | compute {target : Name} {value : Flow.Operation} {loads code : List Instruction}
      (hloads : ∀ instruction ∈ loads, IsLoad context instruction)
      (hcode : Computes context value (.var target) code) :
    Shape context (.assign target value) (loads ++ code)
  | call {target name : Name} {arguments : List Flow.Atom} {loads : List Instruction}
      {operands : List Operand} (hloads : ∀ instruction ∈ loads, IsLoad context instruction)
      (hoperands : ∀ operand ∈ operands, operand.isValue = true)
      (hlength : operands.length = arguments.length) :
    Shape context (.assign target (.call (.var name) arguments))
      (loads ++ callCode context name operands ++ [.movq rax (.var target)])
  | print {value : Flow.Atom} {loads : List Instruction} {operand : Operand}
      (hloads : ∀ instruction ∈ loads, IsLoad context instruction)
      (hoperand : operand.isValue = true) :
    Shape context (.print value)
      (loads ++ [.movq operand (.register .rdi), .callq Name.printInt [.rdi]])
  | collect (bytes : Nat) :
    Shape context (.collect bytes) [.movq r15 (.register .rdi),
      .movq (.immediate (Word.ofCount bytes)) (.register .rsi),
      .callq Name.collector Register.runtimeArguments]
  | setField {tuple : Name} {index : Nat} {value : Flow.Atom} {loads : List Instruction}
      {operand : Operand} (hloads : ∀ instruction ∈ loads, IsLoad context instruction)
      (hoperand : operand.isValue = true) :
    Shape context (.setField tuple index value)
      (loads ++ [.movq (.var tuple) r11, .movq operand (field index)])
  | goto (label : Name) : Shape context (.goto label) [.jump label]
  | branch {operator : Operator} {left right : Flow.Atom} {positive negative : Name}
      {loads : List Instruction} {lhs rhs : Operand} (condition : Condition)
      (hloads : ∀ instruction ∈ loads, IsLoad context instruction) (hlhs : lhs.isValue = true)
      (hrhs : rhs.isValue = true) :
    Shape context (.branch operator left right positive negative)
      (loads ++ [.cmpq rhs lhs, .jumpIf condition positive, .jump negative])
  | ret {value : Flow.Atom} {loads : List Instruction} {operand : Operand}
      (hloads : ∀ instruction ∈ loads, IsLoad context instruction)
      (hoperand : operand.isValue = true) :
    Shape context (.ret value) (loads ++ [.movq operand rax, .jump context.conclusion])
  | finalCall {name : Name} {arguments : List Flow.Atom} {loads : List Instruction}
      {operands : List Operand} (hloads : ∀ instruction ∈ loads, IsLoad context instruction)
      (hoperands : ∀ operand ∈ operands, operand.isValue = true)
      (hlength : operands.length = arguments.length) :
    Shape context (.tailCall (.var name) arguments)
      (loads ++ callCode context name operands ++ [.jump context.conclusion])
  | tailCall {name : Name} {arguments : List Flow.Atom} {loads : List Instruction}
      {operands : List Operand} {destination : Operand}
      (hloads : ∀ instruction ∈ loads, IsLoad context instruction)
      (hoperands : ∀ operand ∈ operands, operand.isValue = true)
      (hdestination : context.functionNames.contains name = true ∧ destination = .global name ∨
        destination = .var name) :
    Shape context (.tailCall (.var name) arguments)
      (loads ++ passInRegisters context.config.parameters operands ++
        [.tailJump destination (context.config.parameters.take operands.length)])

/-- The code of an assignment has one of the shapes. -/
theorem assignment_shape {target : Name}
    (h : assignment context (.var target) value s = .ok (code, s')) :
    Shape context (.assign target value) code := by
  have hcompute {code : List Instruction} (hcode : Computes context value (.var target) code) :
      Shape context (.assign target value) code :=
    .compute (List.forall_mem_nil _) hcode
  cases value with
  | atom a =>
    cases a with
    | var name =>
      rw [assignment] at h
      split at h
      · next hname =>
        cases h
        exact hcompute (.address hname)
      · cases h
        exact hcompute (.move rfl)
    | const value =>
      rw [assignment, bind_pure_eq_ok] at h
      obtain ⟨⟨loads, source⟩, hatom, rfl⟩ := h
      have hshape := atom_eq_ok hatom
      exact .compute hshape.1 (.move hshape.2)
  | primitive operation operands =>
    obtain ⟨loads, rest, rfl, hloads, hrest⟩ := operator_shape h
    exact .compute hloads hrest
  | call callee arguments =>
    rw [assignment, bind_pure_eq_ok] at h
    obtain ⟨callCode, hcall, rfl⟩ := h
    obtain ⟨name, loads, operands, rfl, hatoms, rfl⟩ := call_eq_ok hcall
    obtain ⟨hloads, hoperands, hlength⟩ := atoms_eq_ok hatoms
    exact .call hloads hoperands hlength
  | allocate bytes ty =>
    cases ty with
    | tuple fields =>
      cases h
      exact hcompute (.allocation bytes fields)
    | _ => cases h
  | global name =>
    cases h
    exact hcompute (.global rfl)

/-- So has the code of a tail call. -/
theorem tailCall_shape {target : Flow.Atom}
    (h : Selection.tailCall context target arguments s = .ok (code, s')) :
    Shape context (.tailCall target arguments) code := by
  unfold Selection.tailCall at h
  dsimp only at h
  split at h
  · rw [bind_pure_eq_ok] at h
    obtain ⟨callCode, hcall, rfl⟩ := h
    obtain ⟨name, loads, operands, rfl, hatoms, rfl⟩ := call_eq_ok hcall
    obtain ⟨hloads, hoperands, hlength⟩ := atoms_eq_ok hatoms
    exact .finalCall hloads hoperands hlength
  · cases target with
    | const value =>
      obtain ⟨_, _, hrefused, -⟩ := bind_eq_ok.mp h
      cases hrefused
    | var name =>
      dsimp only at h
      split at h
      · next hname =>
        rw [pure_bind, bind_pure_eq_ok] at h
        obtain ⟨⟨loads, operands⟩, hatoms, rfl⟩ := h
        obtain ⟨hloads, hoperands, -⟩ := atoms_eq_ok hatoms
        exact .tailCall hloads hoperands (.inl ⟨hname, rfl⟩)
      · rw [pure_bind, bind_pure_eq_ok] at h
        obtain ⟨⟨loads, operands⟩, hatoms, rfl⟩ := h
        obtain ⟨hloads, hoperands, -⟩ := atoms_eq_ok hatoms
        exact .tailCall hloads hoperands (.inr rfl)

/-- Statements have no other code than these shapes. -/
theorem statement_shape {st : Flow.Stmt} (h : statement context st s = .ok (code, s')) :
    Shape context st code := by
  cases st with
  | assign target value => exact assignment_shape h
  | print value =>
    rw [statement, bind_pure_eq_ok] at h
    obtain ⟨⟨loads, operand⟩, hatom, rfl⟩ := h
    have hshape := atom_eq_ok hatom
    exact .print hshape.1 hshape.2
  | collect bytes =>
    cases h
    exact .collect bytes
  | setField tuple index value =>
    rw [statement, bind_pure_eq_ok] at h
    obtain ⟨⟨loads, operand⟩, hatom, rfl⟩ := h
    have hshape := atom_eq_ok hatom
    exact .setField hshape.1 hshape.2
  | goto label =>
    cases h
    exact .goto label
  | branch operator left right positive negative =>
    rw [statement] at h
    cases hcondition : Condition.ofOperator? operator with
    | none =>
      rw [hcondition] at h
      cases h
    | some condition =>
      rw [hcondition] at h
      dsimp only at h
      obtain ⟨⟨leftLoads, lhs⟩, s₁, hleft, h⟩ := bind_eq_ok.mp h
      obtain ⟨⟨rightLoads, rhs⟩, s₂, hright, h⟩ := bind_eq_ok.mp h
      cases h
      have hlhs := atom_eq_ok hleft
      have hrhs := atom_eq_ok hright
      exact .branch condition (List.forall_mem_append.mpr ⟨hlhs.1, hrhs.1⟩) hlhs.2 hrhs.2
  | ret value =>
    rw [statement, bind_pure_eq_ok] at h
    obtain ⟨⟨loads, operand⟩, hatom, rfl⟩ := h
    have hshape := atom_eq_ok hatom
    exact .ret hshape.1 hshape.2
  | tailCall target arguments => exact tailCall_shape h

/-! ## Single instructions -/

/-- The instructions that the code of a statement may have, with the names that they refer to. -/
inductive Emits (context : Context) (st : Flow.Stmt) : Instruction → Prop
  | address {name : Name} (hname : context.functionNames.contains name = true) (target : Name) :
    Emits context st (.leaq (.global name) (.var target))
  | global {target name : Name} (hst : st = .assign target (.global name)) :
    Emits context st (.movq (.global name) (.var target))
  | free : Emits context st (.movq (.global Name.freePointer) r11)
  | advance (bytes : Word) :
    Emits context st (.addq (.immediate bytes) (.global Name.freePointer))
  | operation {instruction : Instruction} (hoperation : instruction.isOperation = true)
      (hoperands : ∀ operand ∈ instruction.operands, operand.isGlobal = false) :
    Emits context st instruction
  | callq {label : Name} (used : List Register)
      (hlabel : context.functionNames.contains label = true ∨ label = Name.printInt ∨
        label = Name.collector) : Emits context st (.callq label used)
  | callIndirect (used : List Register) : Emits context st (.callIndirect rax used)
  | tailJump {name : Name} {target : Operand} (used : List Register)
      (htarget : context.functionNames.contains name = true ∧ target = .global name ∨
        target = .var name) : Emits context st (.tailJump target used)
  | jump {label : Name} (hlabel : label = context.conclusion ∨ label ∈ st.successors) :
    Emits context st (.jump label)
  | jumpIf (condition : Condition) {label : Name} (hlabel : label ∈ st.successors) :
    Emits context st (.jumpIf condition label)

variable {st : Flow.Stmt}

/-- Operations whose operands are no globals. -/
theorem emits_binary {operator : BinaryOperator} {source : Operand}
    (hoperator : (operator != .leaq) = true) (hsource : source.isGlobal = false)
    (hdestination : destination.isGlobal = false) :
    Emits context st (.binary operator source destination) :=
  .operation hoperator (List.forall_mem_cons.mpr
    ⟨hsource, List.forall_mem_singleton.mpr hdestination⟩)

/-- A move that may be left out. -/
theorem emits_moveUnlessSame {source : Operand} (hsource : source.isGlobal = false)
    (hdestination : destination.isGlobal = false) :
    ∀ instruction ∈ moveUnlessSame source destination, Emits context st instruction := by
  unfold moveUnlessSame
  split
  · exact List.forall_mem_nil _
  · exact List.forall_mem_singleton.mpr (emits_binary rfl hsource hdestination)

/-- A negation. -/
theorem emits_negq {operand : Operand} (h : operand.isGlobal = false) :
    Emits context st (.negq operand) :=
  .operation rfl (List.forall_mem_singleton.mpr h)

/-- Code that computes, instruction by instruction. -/
theorem Computes.emits {target : Name} (h : Computes context value (.var target) code) :
    ∀ instruction ∈ code, Emits context (.assign target value) instruction := by
  have hvalue {operand : Operand} (h : operand.isValue = true) : operand.isGlobal = false :=
    X86.Operand.isGlobal_of_isValue h
  have harithmetic {operator : BinaryOperator} (h : operator.isArithmetic = true) :
      (operator != .leaq) = true := by
    cases operator <;> first | rfl | cases h
  have htarget : (Operand.var target).isGlobal = false := rfl
  cases h with
  | move hsource =>
    exact List.forall_mem_singleton.mpr (emits_binary rfl (hvalue hsource) htarget)
  | global hname => exact List.forall_mem_singleton.mpr (.global (congrArg _ hname))
  | address hname => exact List.forall_mem_singleton.mpr (.address hname target)
  | negation hsource =>
    exact List.forall_mem_append.mpr ⟨emits_moveUnlessSame (hvalue hsource) htarget,
      List.forall_mem_singleton.mpr (emits_negq htarget)⟩
  | operation hoperator hlhs hrhs =>
    exact List.forall_mem_append.mpr ⟨emits_moveUnlessSame (hvalue hlhs) htarget,
      List.forall_mem_singleton.mpr (emits_binary (harithmetic hoperator) (hvalue hrhs) htarget)⟩
  | update hoperator hoperand =>
    exact List.forall_mem_singleton.mpr
      (emits_binary (harithmetic hoperator) (hvalue hoperand) htarget)
  | difference hoperand =>
    exact List.forall_mem_cons.mpr ⟨emits_negq htarget,
      List.forall_mem_singleton.mpr (emits_binary rfl (hvalue hoperand) htarget)⟩
  | comparison condition hlhs hrhs =>
    refine List.forall_mem_cons.mpr ⟨emits_binary rfl (hvalue hrhs) (hvalue hlhs),
      List.forall_mem_cons.mpr ⟨.operation rfl (List.forall_mem_singleton.mpr rfl),
        List.forall_mem_singleton.mpr (emits_binary rfl rfl htarget)⟩⟩
  | field index htuple =>
    exact List.forall_mem_cons.mpr ⟨emits_binary rfl (hvalue htuple) rfl,
      List.forall_mem_singleton.mpr (emits_binary rfl rfl htarget)⟩
  | allocation bytes fields =>
    exact List.forall_mem_cons.mpr ⟨.free, List.forall_mem_cons.mpr ⟨.advance _,
      List.forall_mem_cons.mpr ⟨emits_binary rfl rfl rfl,
        List.forall_mem_singleton.mpr (emits_binary rfl rfl htarget)⟩⟩⟩

/-- Arguments in registers. -/
theorem emits_passInRegisters {registers : List Register}
    (h : ∀ operand ∈ operands, operand.isValue = true) :
    ∀ instruction ∈ passInRegisters registers operands, Emits context st instruction := by
  refine List.forall_mem_map.mpr fun entry hentry => ?_
  exact emits_binary rfl (X86.Operand.isGlobal_of_isValue (h _ (List.of_mem_zip hentry).1)) rfl

/-- The code of a call, instruction by instruction. -/
theorem emits_callCode {name : Name} (h : ∀ operand ∈ operands, operand.isValue = true) :
    ∀ instruction ∈ callCode context name operands, Emits context st instruction := by
  have hoptional {condition : Prop} [Decidable condition] {instruction : Instruction}
      (hemits : Emits context st instruction) :
      ∀ i ∈ if condition then [instruction] else [], Emits context st i := by
    split
    · exact List.forall_mem_singleton.mpr hemits
    · exact List.forall_mem_nil _
  have hpushed : ∀ instruction ∈
      (operands.drop context.config.parameters.length).reverse.map Instruction.pushq,
      Emits context st instruction := by
    refine List.forall_mem_map.mpr fun operand hoperand => .operation rfl ?_
    have hmem := List.mem_of_mem_drop (List.mem_reverse.mp hoperand)
    exact List.forall_mem_singleton.mpr (X86.Operand.isGlobal_of_isValue (h operand hmem))
  rw [callCode, setUp]
  refine List.forall_mem_append.mpr ⟨List.forall_mem_append.mpr ⟨List.forall_mem_append.mpr
    ⟨List.forall_mem_append.mpr ⟨?_, hpushed⟩, emits_passInRegisters h⟩, ?_⟩,
      List.forall_mem_cons.mpr ⟨?_, ?_⟩⟩
  · exact hoptional (emits_binary rfl rfl rfl)
  · unfold approach
    split
    · exact List.forall_mem_nil _
    · exact List.forall_mem_singleton.mpr (emits_binary rfl rfl rfl)
  · unfold transfer
    split
    · next hname => exact .callq _ (.inl hname)
    · exact .callIndirect _
  · exact hoptional (emits_binary rfl rfl rfl)

/-- The code of a statement has no other instructions than these. -/
theorem Shape.emits (h : Shape context st code) :
    ∀ instruction ∈ code, Emits context st instruction := by
  have hvalue {operand : Operand} (h : operand.isValue = true) : operand.isGlobal = false :=
    X86.Operand.isGlobal_of_isValue h
  have hload {loads : List Instruction} (h : ∀ i ∈ loads, IsLoad context i) :
      ∀ i ∈ loads, Emits context st i := by
    intro i hi
    obtain ⟨name, temporary, hname, rfl⟩ := h i hi
    exact .address hname temporary
  cases h with
  | compute hloads hcode => exact List.forall_mem_append.mpr ⟨hload hloads, hcode.emits⟩
  | call hloads hoperands hlength =>
    exact List.forall_mem_append.mpr ⟨List.forall_mem_append.mpr
      ⟨hload hloads, emits_callCode hoperands⟩,
        List.forall_mem_singleton.mpr (emits_binary rfl rfl rfl)⟩
  | print hloads hoperand =>
    exact List.forall_mem_append.mpr ⟨hload hloads, List.forall_mem_cons.mpr
      ⟨emits_binary rfl (hvalue hoperand) rfl,
        List.forall_mem_singleton.mpr (.callq _ (.inr (.inl rfl)))⟩⟩
  | collect bytes =>
    exact List.forall_mem_cons.mpr ⟨emits_binary rfl rfl rfl, List.forall_mem_cons.mpr
      ⟨emits_binary rfl rfl rfl, List.forall_mem_singleton.mpr (.callq _ (.inr (.inr rfl)))⟩⟩
  | setField hloads hoperand =>
    exact List.forall_mem_append.mpr ⟨hload hloads, List.forall_mem_cons.mpr
      ⟨emits_binary rfl rfl rfl,
        List.forall_mem_singleton.mpr (emits_binary rfl (hvalue hoperand) rfl)⟩⟩
  | goto label => exact List.forall_mem_singleton.mpr (.jump (.inr List.mem_cons_self))
  | branch condition hloads hlhs hrhs =>
    exact List.forall_mem_append.mpr ⟨hload hloads, List.forall_mem_cons.mpr
      ⟨emits_binary rfl (hvalue hrhs) (hvalue hlhs), List.forall_mem_cons.mpr
        ⟨.jumpIf _ List.mem_cons_self, List.forall_mem_singleton.mpr
          (.jump (.inr (List.mem_cons_of_mem _ List.mem_cons_self)))⟩⟩⟩
  | ret hloads hoperand =>
    exact List.forall_mem_append.mpr ⟨hload hloads, List.forall_mem_cons.mpr
      ⟨emits_binary rfl (hvalue hoperand) rfl, List.forall_mem_singleton.mpr (.jump (.inl rfl))⟩⟩
  | finalCall hloads hoperands hlength =>
    exact List.forall_mem_append.mpr ⟨List.forall_mem_append.mpr
      ⟨hload hloads, emits_callCode hoperands⟩, List.forall_mem_singleton.mpr (.jump (.inl rfl))⟩
  | tailCall hloads hoperands hdestination =>
    exact List.forall_mem_append.mpr ⟨List.forall_mem_append.mpr
      ⟨hload hloads, emits_passInRegisters hoperands⟩,
        List.forall_mem_singleton.mpr (.tailJump _ hdestination)⟩

/-! ## Blocks -/

/-- The code of statements consists of remarks and of what their instructions may be. -/
theorem forall_mem_statements {p : Instruction → Prop} (hremark : ∀ text, p (.comment text))
    {sts : List Flow.Stmt}
    (hemits : ∀ st ∈ sts, ∀ instruction, Emits context st instruction → p instruction)
    {code : List Instruction} (h : statements context sts s = .ok (code, s')) :
    ∀ instruction ∈ code, p instruction := by
  induction sts generalizing code s with
  | nil =>
    cases h
    exact List.forall_mem_nil _
  | cons st sts ih =>
    obtain ⟨hst, hsts⟩ := List.forall_mem_cons.mp hemits
    rw [statements, bind₂_eq_ok] at h
    obtain ⟨first, s₁, rest, hfirst, hrest, rfl⟩ := h
    refine List.forall_mem_append.mpr ⟨List.forall_mem_append.mpr ⟨?_, ?_⟩, ih hsts hrest⟩
    · unfold remark
      split
      · exact List.forall_mem_singleton.mpr (hremark _)
      · exact List.forall_mem_nil _
    · exact fun instruction hmem =>
        hst instruction ((statement_shape hfirst).emits instruction hmem)

/-- The second block holds the code of the first one, behind moves of arguments to parameters. -/
def IsCodeOf (context : Context) (block : Flow.Block) (block' : X86.Block) : Prop :=
  block'.label = block.label ∧ ∃ parameters code s s',
    statements context block.statements s = .ok (code, s') ∧
    block'.instructions = copyParameters context.config.parameters parameters ++ code

/-- Each block of the result holds the code of its own block. -/
theorem forall₂_isCodeOf {parameters : List Name} {blocks : List Flow.Block}
    {blocks' : List X86.Block}
    (h : Selection.blocks context (copyParameters context.config.parameters parameters) blocks s =
      .ok (blocks', s')) :
    List.Forall₂ (IsCodeOf context) blocks blocks' := by
  induction blocks generalizing parameters blocks' s with
  | nil =>
    cases h
    exact .nil
  | cons block blocks ih =>
    rw [Selection.blocks, bind₂_eq_ok] at h
    obtain ⟨code, s₁, rest, hcode, hrest, rfl⟩ := h
    -- only the first block has parameters to copy
    have hnone : copyParameters context.config.parameters [] = [] := rfl
    rw [← hnone] at hrest
    exact .cons ⟨rfl, parameters, code, s, s₁, hcode, rfl⟩ (ih hrest)

end Selection

/-- The selected function has the same name, and the code of the blocks one by one. -/
theorem Flow.Function.select_eq_ok {config : Config} {functionNames : Std.ExtTreeSet Name}
    {function : Flow.Function} {selected : X86.Function} {s s' : NameSupply}
    (h : function.select config functionNames s = .ok (selected, s')) :
    selected.name = function.name ∧
      List.Forall₂ (Selection.IsCodeOf ⟨config, functionNames, function.name.conclusionLabel⟩)
        function.blocks selected.blocks := by
  rw [Flow.Function.select, Stateful.bind_pure_eq_ok] at h
  obtain ⟨blocks, hblocks, rfl⟩ := h
  exact ⟨rfl, Selection.forall₂_isCodeOf hblocks⟩

end TupleLang
