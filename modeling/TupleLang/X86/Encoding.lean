import TupleLang.X86.Program

/-!
# Instructions that the machine can encode

Once variables have homes, an instruction may have operands that the machine cannot encode:

* no instruction has two operands in memory;
* a constant wider than 32 bits can only be moved into a register;
* `leaq`, `movzbq` and `imulq` write to registers only;
* `cmpq` compares no constant with a source.

`Instruction.patch` replaces such an instruction by a sequence that does the same through the
scratch register `%rax`, and through `%r11` where `%rax` holds the destination.  A move of a value
to where it is disappears.
-/

namespace TupleLang.X86

namespace Encoding

/-- The scratch register. -/
def rax : Operand := .register .rax

/-- The scratch register for a source while the other one holds a destination. -/
def r11 : Operand := .register .r11

/-- A source that an instruction other than a move can take, with the code that provides it. -/
def narrowSource (source : Operand) : List Instruction × Operand :=
  if source.isWideImmediate then ([.movq source r11], r11) else ([], source)

/-- An instruction that runs on a copy of its destination in the scratch register. -/
def throughScratch (operator : BinaryOperator) (source destination : Operand) :
    List Instruction :=
  let (code, source) := narrowSource source
  code ++ [.movq destination rax, .binary operator source rax]

/-- An instruction whose destination has no rule of its own. -/
def general (operator : BinaryOperator) (source destination : Operand) : List Instruction :=
  if source.isWideImmediate || (source.isMemory && destination.isMemory) then
    [.movq source rax, .binary operator rax destination]
  else
    [.binary operator source destination]

/-- An instruction with a source and a destination, in a form that can be encoded. -/
def binary (operator : BinaryOperator) (source destination : Operand) : List Instruction :=
  match operator with
  | .movq =>
    if source = destination then []
    else if destination.isMemory && (source.isMemory || source.isWideImmediate) then
      [.movq source rax, .movq rax destination]
    else [.movq source destination]
  | .leaq | .movzbq =>
    if destination.isMemory then [.binary operator source rax, .movq rax destination]
    else general operator source destination
  | .imulq =>
    if destination.isMemory then
      throughScratch .imulq source destination ++ [.movq rax destination]
    else general .imulq source destination
  | .cmpq =>
    if destination.isImmediate then throughScratch .cmpq source destination
    else general .cmpq source destination
  | .addq | .subq | .andq | .orq | .xorq => general operator source destination

end Encoding

/-- The instruction in a form that can be encoded. -/
def Instruction.patch : Instruction → List Instruction
  | .binary operator source destination => Encoding.binary operator source destination
  | .pushq operand =>
    if operand.isWideImmediate then [.movq operand Encoding.rax, .pushq Encoding.rax]
    else [.pushq operand]
  | instruction => [instruction]

/-- A program of instructions that can be encoded. -/
def Program.patch (program : Program) : Program :=
  ⟨program.functions.map (Function.expand Instruction.patch)⟩

end TupleLang.X86
