import TupleLang.Machine.Memory
import TupleLang.X86.Printer

/-!
# The machine

A `Machine` is the state of a processor and of the run-time system: registers, the operands of the
last comparison, memory, the globals of the run-time system, the current heap, and the number of
the next instruction.  What a run can be seen to do is kept as a list of events, the last one
first.

Code whose variables have no homes yet can run too, on a machine that has a store for variables
(`Machine.bindings`).  The machine that runs finished code has none, and there an operand that
names a variable is no operand at all.

An `Image` is a program ready to run: its instructions under consecutive numbers, and the numbers
at which labels stand.  Instruction number `n` has the address `Image.codeBase + 8 * n`.
-/

namespace TupleLang

open X86 (Register ByteRegister Operand Instruction)

/-- What a run can be seen to do. -/
inductive Event where
  /-- A word was printed. -/
  | printed (word : Word)
  /-- A collection kept some of the bytes that were in use. -/
  | collected (kept used : Word)
  deriving DecidableEq

/-- The state of the machine. -/
structure Machine where
  /-- The registers, by their numbers. -/
  registers : Vector Word 16 := Vector.replicate 16 0
  /-- The destination and the source of the last comparison. -/
  flags : Word × Word := (0, 0)
  /-- The memory. -/
  memory : Memory := {}
  /-- The globals of the run-time system. -/
  globals : Std.ExtTreeMap Name Word := ∅
  /-- The current heap, once there is one. -/
  heap? : Option AddressRange := none
  /-- Where the next heap will begin. -/
  nextHeap : Word
  /-- The number of the next instruction. -/
  next : Nat := 0
  /-- What the run was seen to do, the last event first. -/
  events : List Event := []
  /-- The values of variables, on a machine that can keep them. -/
  bindings : Option (Name → Word) := none

/-- A program ready to run. -/
structure Image where
  /-- The instructions. -/
  code : Array Instruction := #[]
  /-- The numbers of the instructions at which labels stand. -/
  labels : Std.ExtTreeMap Name Nat := ∅

namespace Image

/-- The address of the first instruction. -/
def codeBase : Word := 0x400000

/-- The return address of the entry point; a return to it ends the run. -/
def haltAddress : Word := codeBase - 8

/-- Adds a block; of two blocks with one label the last one counts. -/
def addBlock (image : Image) (block : X86.Block) : Image where
  code := image.code ++ block.instructions.toArray
  labels := image.labels.insert block.label image.code.size

/-- The image of a program. -/
def ofProgram (program : X86.Program) : Image :=
  (program.functions.flatMap X86.Function.blocks).foldl addBlock {}

/-- The number of the instruction at which a label stands. -/
def label (image : Image) (label : Name) : Except MachineError Nat :=
  match image.labels[label]? with
  | some number => .ok number
  | none => .error (.unknownLabel label)

/-- The address of an instruction. -/
def addressOf (number : Nat) : Word :=
  codeBase + 8 * Word.ofCount number

/-- The number of the instruction at an address. -/
def decode (image : Image) (address : Word) : Except MachineError Nat :=
  let offset := address - codeBase
  let number := (offset / 8).toInt.toNat
  if offset < 0 ∨ offset % 8 ≠ 0 ∨ image.code.size ≤ number then
    .error (.invalidCodeAddress address)
  else .ok number

end Image

namespace Machine

/-- The value of a register. -/
def register (machine : Machine) (register : Register) : Word :=
  have := register.number_lt
  machine.registers[register.number]

/-- Changes a register. -/
def setRegister (machine : Machine) (register : Register) (word : Word) : Machine :=
  { machine with registers := machine.registers.set register.number word register.number_lt }

/-- A register holds what was put there last. -/
@[simp] theorem register_setRegister_self (machine : Machine) (register : Register) (word : Word) :
    (machine.setRegister register word).register register = word := by
  simp [Machine.register, setRegister]

/-- A change of one register leaves the others as they are. -/
theorem register_setRegister_of_ne (machine : Machine) {changed other : Register} (word : Word)
    (h : other ≠ changed) :
    (machine.setRegister changed word).register other = machine.register other := by
  have hnumber : changed.number ≠ other.number := fun e => h (X86.Register.number_inj e.symm)
  simp [Machine.register, setRegister, hnumber]

/-- Changes the low byte of a register. -/
def setLowByte (machine : Machine) (low : ByteRegister) (word : Word) : Machine :=
  machine.setRegister low.full
    ((machine.register low.full &&& ~~~255) ||| (word &&& 255))

/-- The value of a global. -/
def global (machine : Machine) (name : Name) : Except MachineError Word :=
  match machine.globals[name]? with
  | some word => .ok word
  | none => .error (.unknownGlobal name)

/-- Gives a global a value. -/
def setGlobal (machine : Machine) (name : Name) (word : Word) : Machine :=
  { machine with globals := machine.globals.insert name word }

/-- The word at an address. -/
def load (machine : Machine) (address : Word) : Except MachineError Word :=
  machine.memory.load address

/-- Puts a word at an address. -/
def store (machine : Machine) (address word : Word) : Except MachineError Machine := do
  return { machine with memory := ← machine.memory.store address word }

/-- The value of an operand. -/
def read (machine : Machine) : Operand → Except MachineError Word
  | .immediate value => .ok value
  | .register full => .ok (machine.register full)
  | .byteRegister low => .ok (machine.register low.full &&& 255)
  | .deref base offset => machine.load (machine.register base + offset)
  | .global name => machine.global name
  | .var name =>
    match machine.bindings with
    | some values => .ok (values name)
    | none => .error (.invalidInstruction name)

/-- Gives an operand a value. -/
def write (machine : Machine) (operand : Operand) (word : Word) : Except MachineError Machine :=
  match operand with
  | .register full => .ok (machine.setRegister full word)
  | .byteRegister low => .ok (machine.setLowByte low word)
  | .deref base offset => machine.store (machine.register base + offset) word
  | .global name => do
    let _ ← machine.global name
    return machine.setGlobal name word
  | .immediate value => .error (.invalidInstruction (Operand.immediate value).text)
  | .var name =>
    match machine.bindings with
    | some values =>
      .ok { machine with bindings := some fun other => if other = name then word else values other }
    | none => .error (.invalidInstruction name)

/-- The address that `leaq` takes: that of a label or of a word in memory. -/
def effectiveAddress (image : Image) (machine : Machine) : Operand → Except MachineError Word
  | .global label =>
    match image.labels[label]? with
    | some number => .ok (Image.addressOf number)
    | none => .error (.unknownLabel label)
  | .deref base offset => .ok (machine.register base + offset)
  | operand => .error (.invalidInstruction ("leaq " ++ operand.text))

/-- Pushes a word on the stack. -/
def push (machine : Machine) (word : Word) : Except MachineError Machine := do
  let top := machine.register .rsp - 8
  let machine ← machine.store top word
  return machine.setRegister .rsp top

/-- Pops a word from the stack. -/
def pop (machine : Machine) : Except MachineError (Word × Machine) := do
  let top := machine.register .rsp
  let word ← machine.load top
  return (word, machine.setRegister .rsp (top + 8))

/-- Continues at an instruction. -/
def continueAt (machine : Machine) (number : Nat) : Machine :=
  { machine with next := number }

/-- Records an event. -/
def record (machine : Machine) (event : Event) : Machine :=
  { machine with events := event :: machine.events }

end Machine

end TupleLang
