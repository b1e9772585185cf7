import TupleLang.Text.Styled
import TupleLang.X86.Program

/-!
# Printing instructions

Instructions are written in the syntax of the assembler: source before destination, registers
after a percent sign, constants after a dollar sign.

`Program.listing` shows a program for reading, in color; `Program.assembly` writes the text that
the assembler takes.  Only the entry point is visible to the run-time system, so only it is
announced as global.
-/

namespace TupleLang.X86

open Styled (raw painted)

/-- The text of an operand. -/
def Operand.text : Operand → String
  | immediate value => "$" ++ value.text
  | register full => "%" ++ full.name
  | byteRegister low => "%" ++ low.name
  | var name => name
  | deref base offset => offset.text ++ "(%" ++ base.name ++ ")"
  | global name => name ++ "(%rip)"

/-- The text of an instruction. -/
def Instruction.text : Instruction → String
  | binary operator source destination =>
    operator.name ++ " " ++ source.text ++ ", " ++ destination.text
  | negq operand => "negq " ++ operand.text
  | set condition destination => "set" ++ condition.name ++ " " ++ destination.text
  | pushq operand => "pushq " ++ operand.text
  | popq operand => "popq " ++ operand.text
  | callq label _ => "callq " ++ label
  | callIndirect target _ => "callq *" ++ target.text
  | tailJump target _ => "tailjmp " ++ target.text
  | jump label => "jmp " ++ label
  | jumpIf condition label => "j" ++ condition.name ++ " " ++ label
  | jumpIndirect target => "jmp *" ++ target.text
  | retq => "retq"
  | comment text => "# " ++ text

/-- A line of a listing; remarks are dimmed. -/
def Instruction.styled (instruction : Instruction) : Styled :=
  if instruction.isComment then painted .dim instruction.text else raw instruction.text

/-- A block of a listing: its label, then its instructions, indented. -/
def Block.styled (block : Block) : Styled :=
  painted .brightRed (block.label ++ ":") ++ raw "\n" ++
    block.instructions.flatMap fun instruction =>
      raw "    " ++ instruction.styled ++ raw "\n"

/-- A function of a listing. -/
def Function.styled (function : Function) : Styled :=
  painted .magenta "fn" ++ raw " " ++ painted .blue function.name ++ raw " " ++
    painted .white "\x7b" ++ raw "\n" ++ function.blocks.flatMap Block.styled ++
    painted .white "\x7d" ++ raw "\n"

/-- A program for reading. -/
def Program.styled (program : Program) : Styled :=
  program.functions.flatMap Function.styled

/-- A program for reading, without colors. -/
def Program.listing (program : Program) : String :=
  program.styled.plain

namespace Assembly

/-- A line of its own, indented by two blanks. -/
def line (text : String) : String :=
  "  " ++ text ++ "\n"

/-- The announcement that a label is visible from outside. -/
def globalLabel (name : Name) : String :=
  line (".globl " ++ name)

/-- A label on a line of its own. -/
def label (name : Name) : String :=
  name ++ ":\n"

/-- A remark on a line of its own. -/
def remark (text : String) : String :=
  line ("# " ++ text)

/-- An instruction on a line of its own. -/
def instruction (instruction : Instruction) : String :=
  line instruction.text

/-- A block: its label, then its instructions. -/
def block (block : Block) : String :=
  label block.label ++ String.join (block.instructions.map instruction)

/-- A function: its blocks, after an announcement if it is the entry point. -/
def function (function : Function) : String :=
  (if function.name = Name.entryPoint then globalLabel function.name else "") ++
    String.join (function.blocks.map block)

end Assembly

/-- The text that the assembler takes. -/
def Program.assembly (program : Program) : String :=
  "  .text\n" ++ "\n".intercalate (program.functions.map Assembly.function)

end TupleLang.X86
