import TupleLang.Name
import TupleLang.Operator
import TupleLang.Word
import TupleLang.X86.Register

/-!
# Pseudo x86-64 instructions

Until every variable has a home, operands may still name variables; after that an instruction is
one instruction of the machine, apart from comments and from tail jumps, which stand for the code
that leaves a frame.

Two-operand instructions have their source first and their destination second.  A comparison
leaves its operands to the conditional instructions after it: `Condition.holds` decides a condition
from the destination and the source of the last comparison.
-/

namespace TupleLang.X86

/-- The operand of an instruction. -/
inductive Operand where
  /-- A constant. -/
  | immediate (value : Word)
  /-- A 64-bit register. -/
  | register (register : Register)
  /-- The low byte of a register. -/
  | byteRegister (register : ByteRegister)
  /-- A variable that has no home yet. -/
  | var (name : Name)
  /-- The word at a distance from the address in a register. -/
  | deref (register : Register) (offset : Word)
  /-- A global of the run-time system or, for `leaq`, a label. -/
  | global (name : Name)
  deriving DecidableEq

namespace Operand

/-- Whether the operand is a word in memory. -/
def isMemory : Operand → Bool
  | deref _ _ | global _ => true
  | _ => false

/-- Whether the operand is a constant. -/
def isImmediate : Operand → Bool
  | immediate _ => true
  | _ => false

/-- Whether the operand is a constant wider than 32 bits, which only a move into a register can
hold. -/
def isWideImmediate : Operand → Bool
  | immediate value => !value.isNarrow
  | _ => false

end Operand

/-- The instructions with a source and a destination. -/
inductive BinaryOperator where
  | addq
  | subq
  | imulq
  | andq
  | orq
  | xorq
  | cmpq
  | movq
  | movzbq
  | leaq
  deriving DecidableEq

namespace BinaryOperator

/-- The operators in the order of their declaration. -/
def all : List BinaryOperator :=
  [addq, subq, imulq, andq, orq, xorq, cmpq, movq, movzbq, leaq]

/-- The name of the instruction. -/
def name : BinaryOperator → String
  | addq => "addq"
  | subq => "subq"
  | imulq => "imulq"
  | andq => "andq"
  | orq => "orq"
  | xorq => "xorq"
  | cmpq => "cmpq"
  | movq => "movq"
  | movzbq => "movzbq"
  | leaq => "leaq"

/-- The operator with the given name. -/
def ofName? (name : String) : Option BinaryOperator :=
  all.find? (·.name == name)

/-- Whether the old value of the destination matters. -/
def readsDestination : BinaryOperator → Bool
  | movq | movzbq | leaq => false
  | _ => true

/-- Whether the destination gets a new value. -/
def writesDestination : BinaryOperator → Bool
  | cmpq => false
  | _ => true

/-- Whether the destination becomes a copy of the source. -/
def isMove : BinaryOperator → Bool
  | movq | movzbq => true
  | _ => false

end BinaryOperator

/-- The conditions of conditional instructions. -/
inductive Condition where
  | e
  | ne
  | l
  | le
  | g
  | ge
  deriving DecidableEq

namespace Condition

/-- The conditions in the order of their declaration. -/
def all : List Condition :=
  [e, ne, l, le, g, ge]

/-- The suffix by which an instruction names its condition. -/
def name : Condition → String
  | e => "e"
  | ne => "ne"
  | l => "l"
  | le => "le"
  | g => "g"
  | ge => "ge"

/-- The condition with the given name. -/
def ofName? (name : String) : Option Condition :=
  all.find? (·.name == name)

/-- The condition that decides a comparison; other operators have none. -/
def ofOperator? : Operator → Option Condition
  | .eq => some e
  | .ne => some ne
  | .lt => some l
  | .lte => some le
  | .gt => some g
  | .gte => some ge
  | _ => none

/-- Whether the condition holds after a comparison of the source with the destination. -/
def holds (condition : Condition) (destination source : Word) : Bool :=
  match condition with
  | e => destination == source
  | ne => destination != source
  | l => decide (destination < source)
  | le => decide (destination ≤ source)
  | g => decide (source < destination)
  | ge => decide (source ≤ destination)

end Condition

/-- The instructions. -/
inductive Instruction where
  /-- An instruction with a source and a destination. -/
  | binary (operator : BinaryOperator) (source destination : Operand)
  /-- Changes the sign of the operand. -/
  | negq (operand : Operand)
  /-- Sets the operand to `1` if the condition holds, else to `0`. -/
  | set (condition : Condition) (destination : Operand)
  | pushq (operand : Operand)
  | popq (operand : Operand)
  /-- Calls the function at a label; `arguments` lists the registers that hold arguments. -/
  | callq (label : Name) (arguments : List Register)
  /-- Calls the function whose address is in the operand. -/
  | callIndirect (target : Operand) (arguments : List Register)
  /-- Leaves the current function for the target, which returns to the caller of this one. -/
  | tailJump (target : Operand) (arguments : List Register)
  | jump (label : Name)
  | jumpIf (condition : Condition) (label : Name)
  /-- Jumps to the address in the operand. -/
  | jumpIndirect (target : Operand)
  | retq
  /-- A remark, which does nothing. -/
  | comment (text : String)
  deriving DecidableEq

namespace Instruction

/-- A move of the source into the destination. -/
def movq (source destination : Operand) : Instruction :=
  binary .movq source destination

/-- An addition of the source to the destination. -/
def addq (source destination : Operand) : Instruction :=
  binary .addq source destination

/-- A subtraction of the source from the destination. -/
def subq (source destination : Operand) : Instruction :=
  binary .subq source destination

/-- A comparison of the destination with the source. -/
def cmpq (source destination : Operand) : Instruction :=
  binary .cmpq source destination

/-- A move of the address of the source into the destination. -/
def leaq (source destination : Operand) : Instruction :=
  binary .leaq source destination

/-- The operands that the instruction mentions, in order. -/
def operands : Instruction → List Operand
  | binary _ source destination => [source, destination]
  | negq operand | set _ operand | pushq operand | popq operand | callIndirect operand _
  | tailJump operand _ | jumpIndirect operand => [operand]
  | callq _ _ | jump _ | jumpIf _ _ | retq | comment _ => []

/-- The instruction with every operand replaced. -/
def mapOperands (f : Operand → Operand) : Instruction → Instruction
  | binary operator source destination => binary operator (f source) (f destination)
  | negq operand => negq (f operand)
  | set condition destination => set condition (f destination)
  | pushq operand => pushq (f operand)
  | popq operand => popq (f operand)
  | callIndirect target arguments => callIndirect (f target) arguments
  | tailJump target arguments => tailJump (f target) arguments
  | jumpIndirect target => jumpIndirect (f target)
  | callq label arguments => callq label arguments
  | jump label => jump label
  | jumpIf condition label => jumpIf condition label
  | retq => retq
  | comment text => comment text

/-- Whether the instruction is a remark. -/
def isComment : Instruction → Bool
  | comment _ => true
  | _ => false

/-- The operands of the result are the images of the operands. -/
@[simp] theorem operands_mapOperands (f : Operand → Operand) (instruction : Instruction) :
    (instruction.mapOperands f).operands = instruction.operands.map f := by
  cases instruction <;> rfl

end Instruction

end TupleLang.X86
