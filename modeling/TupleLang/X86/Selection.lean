import TupleLang.Config
import TupleLang.Error
import TupleLang.Flow.Printer
import TupleLang.Header
import TupleLang.X86.Program

/-!
# Selecting instructions

Each statement of a control-flow program becomes a short sequence of instructions over variables
(`Flow.Stmt.select`).  The conventions are these.

* Results are returned in `%rax`; a return jumps to the conclusion of its function.
* The leading arguments of a call travel in the parameter registers of the configuration, the
  others on the stack (`Selection.call`), below a word of padding if their number is odd, so that
  the stack pointer is a multiple of sixteen at the call.
* Fields of tuples are addressed through `%r11`.
* The name of a function is a label, so its address is loaded into a variable before the name is
  used as a value (`Selection.atom`).

`Selection.primitive` is the code of an operator whose operands are known; the destination may be
one of the operands.
-/

namespace TupleLang

open X86 (Operand Instruction Condition Register)

namespace Selection

/-- What the code of a statement depends on. -/
structure Context where
  /-- The configuration. -/
  config : Config
  /-- The names that stand for functions. -/
  functionNames : Std.ExtTreeSet Name
  /-- The label to which a return jumps. -/
  conclusion : Name

/-- Refuses a construct. -/
def refuse {α : Type} (construct : Construct) : Lowering α :=
  Lowering.unsupported .selectInstructions construct

/-- The register of results. -/
def rax : Operand := .register .rax

/-- The register through which fields are addressed. -/
def r11 : Operand := .register .r11

/-- The top of the root stack. -/
def r15 : Operand := .register .r15

/-- The stack pointer. -/
def rsp : Operand := .register .rsp

/-- The field with the given index of the tuple whose address is in `%r11`; the header comes
first. -/
def field (index : Nat) : Operand :=
  .deref .r11 (8 * (Word.ofCount index + 1))

/-- The operand of an atom, with the code that must run before it. -/
def atom (context : Context) : Flow.Atom → Lowering (List Instruction × Operand)
  | .const (.int value) => return ([], .immediate value)
  | .const (.bool value) => return ([], .immediate (Word.ofBool value))
  | .var name => do
    if context.functionNames.contains name then
      let temporary := Operand.var (← Lowering.fresh "fn")
      return ([.leaq (.global name) temporary], temporary)
    else
      return ([], .var name)

/-- The operands of atoms, with the code that must run before them. -/
def atoms (context : Context) : List Flow.Atom → Lowering (List Instruction × List Operand)
  | [] => return ([], [])
  | first :: rest => do
    let (code, operand) ← atom context first
    let (moreCode, operands) ← atoms context rest
    return (code ++ moreCode, operand :: operands)

/-- A move, unless it would move a value to where it is. -/
def moveUnlessSame (source destination : Operand) : List Instruction :=
  if source = destination then [] else [.movq source destination]

/-- The code of a commutative operator: whichever operand is the destination already stays
there. -/
def commutative (operator : X86.BinaryOperator) (lhs rhs destination : Operand) :
    List Instruction :=
  if rhs = destination then [.binary operator lhs destination]
  else moveUnlessSame lhs destination ++ [.binary operator rhs destination]

/-- The code of a comparison, which goes through the low byte of `%rax`. -/
def comparison (condition : Condition) (lhs rhs destination : Operand) : List Instruction :=
  [.cmpq rhs lhs, .set condition (.byteRegister .al),
    .binary .movzbq (.byteRegister .al) destination]

/-- The code of an operator on operands, unless the operator does not take them.  The difference
into its right operand is the sum of the left operand and the negated right one. -/
def primitive (destination : Operand) : Operator → List Operand → Option (List Instruction)
  | .neg, [operand] => some (moveUnlessSame operand destination ++ [.negq destination])
  | .not, [operand] =>
    some (moveUnlessSame operand destination ++ [.binary .xorq (.immediate 1) destination])
  | .add, [lhs, rhs] => some (commutative .addq lhs rhs destination)
  | .mult, [lhs, rhs] => some (commutative .imulq lhs rhs destination)
  | .and, [lhs, rhs] => some (commutative .andq lhs rhs destination)
  | .or, [lhs, rhs] => some (commutative .orq lhs rhs destination)
  | .sub, [lhs, rhs] =>
    if rhs = destination ∧ lhs ≠ destination then
      some [.negq destination, .addq lhs destination]
    else
      some (moveUnlessSame lhs destination ++ [.subq rhs destination])
  | operator, [lhs, rhs] =>
    (Condition.ofOperator? operator).map fun condition => comparison condition lhs rhs destination
  | _, _ => none

/-- The code of an operator on atoms.  A subscript with a constant index goes through `%r11`. -/
def operator (context : Context) (destination : Operand) (operator : Operator)
    (operands : List Flow.Atom) : Lowering (List Instruction) :=
  let refused := refuse (.operation (.primitive operator operands))
  match operator, operands with
  | .subscript, [tuple, .const (.int index)] => do
    let (code, tuple) ← atom context tuple
    match index.toCount? with
    | some index => return code ++ [.movq tuple r11, .movq (field index) destination]
    | none => refused
  | _, _ => do
    let (code, operands) ← atoms context operands
    match primitive destination operator operands with
    | some instructions => return code ++ instructions
    | none => refused

/-- Moves operands into the parameter registers, in order. -/
def passInRegisters (registers : List Register) (operands : List Operand) : List Instruction :=
  (operands.zip registers).map fun (operand, register) => .movq operand (.register register)

/-- The code of a call, which leaves the result in `%rax`. -/
def call (context : Context) (target : Flow.Atom) (arguments : List Flow.Atom) :
    Lowering (List Instruction) := do
  let registers := context.config.parameters
  let (code, operands) ← atoms context arguments
  let onStack := operands.drop registers.length
  let padding := onStack.length % 2
  let used := registers.take operands.length
  let transfer ← match target with
    | .var name =>
      if context.functionNames.contains name then pure [Instruction.callq name used]
      else pure [.movq (.var name) rax, .callIndirect rax used]
    | .const _ => refuse (.atom target)
  let stackBytes := 8 * Word.ofCount (onStack.length + padding)
  return code ++
    (if padding = 1 then [.subq (.immediate 8) rsp] else []) ++
    onStack.reverse.map .pushq ++
    passInRegisters registers operands ++
    transfer ++
    (if 0 < stackBytes then [.addq (.immediate stackBytes) rsp] else [])

/-- The code that takes a tuple with fields of the given types from the heap. -/
def allocate (bytes : Nat) (fields : List Ty) (destination : Operand) : List Instruction :=
  [.movq (.global Name.freePointer) r11,
    .addq (.immediate (Word.ofCount bytes)) (.global Name.freePointer),
    .movq (.immediate (Header.tag fields)) (.deref .r11 0),
    .movq r11 destination]

/-- The code of an assignment. -/
def assignment (context : Context) (destination : Operand) :
    Flow.Operation → Lowering (List Instruction)
  | .atom (.var name) =>
    if context.functionNames.contains name then
      return [.leaq (.global name) destination]
    else
      return [.movq (.var name) destination]
  | .atom (.const value) => do
    let (code, source) ← atom context (.const value)
    return code ++ [.movq source destination]
  | .primitive operation operands => operator context destination operation operands
  | .call target arguments => do
    return (← call context target arguments) ++ [.movq rax destination]
  | .allocate bytes ty =>
    match ty with
    | .tuple fields => return allocate bytes fields destination
    | _ => refuse (.operation (.allocate bytes ty))
  | .global name => return [.movq (.global name) destination]

/-- The code of a call in place of the current function.  Arguments on the stack would live in the
frame that is left, so a call that has some stays a call. -/
def tailCall (context : Context) (target : Flow.Atom) (arguments : List Flow.Atom) :
    Lowering (List Instruction) := do
  let registers := context.config.parameters
  if registers.length < arguments.length then
    return (← call context target arguments) ++ [.jump context.conclusion]
  let destination ← match target with
    | .var name =>
      if context.functionNames.contains name then pure (Operand.global name)
      else pure (.var name)
    | .const _ => refuse (.statement (.tailCall target arguments))
  let (code, operands) ← atoms context arguments
  return code ++ passInRegisters registers operands ++
    [.tailJump destination (registers.take operands.length)]

/-- The code of a statement. -/
def statement (context : Context) : Flow.Stmt → Lowering (List Instruction)
  | .assign target value => assignment context (.var target) value
  | .print value => do
    let (code, operand) ← atom context value
    return code ++ [.movq operand (.register .rdi), .callq Name.printInt [.rdi]]
  | .collect bytes =>
    return [.movq r15 (.register .rdi), .movq (.immediate (Word.ofCount bytes)) (.register .rsi),
      .callq Name.collector Register.runtimeArguments]
  | .setField tuple index value => do
    let (code, operand) ← atom context value
    return code ++ [.movq (.var tuple) r11, .movq operand (field index)]
  | .goto label => return [.jump label]
  | .branch operator lhs rhs positive negative =>
    match Condition.ofOperator? operator with
    | none => refuse (.statement (.branch operator lhs rhs positive negative))
    | some condition => do
      let (leftCode, left) ← atom context lhs
      let (rightCode, right) ← atom context rhs
      return leftCode ++ rightCode ++
        [.cmpq right left, .jumpIf condition positive, .jump negative]
  | .ret value => do
    let (code, operand) ← atom context value
    return code ++ [.movq operand rax, .jump context.conclusion]
  | .tailCall target arguments => tailCall context target arguments

/-- The remark that shows a statement, if the configuration asks for remarks. -/
def remark (context : Context) (statement : Flow.Stmt) : List Instruction :=
  if context.config.comments then [.comment (Text.visible statement.styled.plain)] else []

/-- The code of the statements of a block. -/
def statements (context : Context) : List Flow.Stmt → Lowering (List Instruction)
  | [] => return []
  | first :: rest => do
    let code ← statement context first
    return remark context first ++ code ++ (← statements context rest)

/-- Where a function finds an argument: in a register, or above its frame. -/
def argumentSource (registers : List Register) (index : Nat) : Operand :=
  match registers[index]? with
  | some register => .register register
  | none => .deref .rbp (16 + 8 * Word.ofCount (index - registers.length))

/-- Moves the arguments of a function into its parameters. -/
def copyParameters (registers : List Register) (parameters : List Name) : List Instruction :=
  parameters.mapIdx fun index parameter =>
    .movq (argumentSource registers index) (.var parameter)

/-- The blocks of a function; the first one begins by copying the parameters. -/
def blocks (context : Context) (opening : List Instruction) :
    List Flow.Block → Lowering (List X86.Block)
  | [] => return []
  | block :: rest => do
    let code ← statements context block.statements
    return ⟨block.label, opening ++ code⟩ :: (← blocks context [] rest)

end Selection

/-- The instructions of a function. -/
def Flow.Function.select (config : Config) (functionNames : Std.ExtTreeSet Name)
    (function : Flow.Function) : Lowering X86.Function := do
  let context : Selection.Context := ⟨config, functionNames, function.name.conclusionLabel⟩
  let opening := Selection.copyParameters config.parameters function.parameters
  let blocks ← Selection.blocks context opening function.blocks
  return { name := function.name, blocks, variableTypes := function.variableTypes }

/-- The instructions of a program. -/
def Flow.Program.select (config : Config) (program : Flow.Program) : Lowering X86.Program := do
  return ⟨← program.functions.mapM (Flow.Function.select config program.functionNames)⟩

end TupleLang
