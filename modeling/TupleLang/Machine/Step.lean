import TupleLang.Machine.Service

/-!
# Running code on the machine

`Machine.execute` runs one instruction, and `Machine.step` fetches the next one and runs it.  A run
starts at the entry point with the halting address on top of an otherwise empty stack and ends when
that address is returned to (`Machine.runFor`), or with an error, or when the limit on the number
of steps is reached.
-/

namespace TupleLang

open X86 (BinaryOperator Operand Instruction)

namespace Machine

/-- The machine after a step. -/
inductive Progress where
  | running (machine : Machine)
  | halted (machine : Machine)

/-- The new value of the destination of an operator that computes one, from the old value and the
source. -/
def compute (operator : BinaryOperator) (old source : Word) : Word :=
  match operator with
  | .addq => old + source
  | .subq => old - source
  | .imulq => old * source
  | .andq => old &&& source
  | .orq => old ||| source
  | .xorq => old ^^^ source
  | .movzbq => source &&& 255
  | .movq | .leaq | .cmpq => source

/-- Runs an instruction with a source and a destination. -/
def executeBinary (image : Image) (machine : Machine) (operator : BinaryOperator)
    (source destination : Operand) : Except MachineError Machine := do
  match operator with
  | .leaq => machine.write destination (← machine.effectiveAddress image source)
  | .cmpq =>
    let value ← machine.read source
    return { machine with flags := (← machine.read destination, value) }
  | .movq | .movzbq =>
    let value ← machine.read source
    machine.write destination (compute operator 0 value)
  | .addq | .subq | .imulq | .andq | .orq | .xorq =>
    let value ← machine.read source
    let old ← machine.read destination
    machine.write destination (compute operator old value)

/-- Refuses a call while the stack pointer is no multiple of sixteen. -/
def checkAlignment (machine : Machine) (target : String) : Except MachineError Unit :=
  let top := machine.register .rsp
  if top % 16 ≠ 0 then .error (.misalignedCall target top) else .ok ()

/-- Pushes the address of the next instruction. -/
def pushReturnAddress (machine : Machine) : Except MachineError Machine :=
  machine.push (Image.addressOf machine.next)

/-- Runs an instruction.  A return to the halting address ends the run. -/
def execute (image : Image) (machine : Machine) : Instruction → Except MachineError Progress
  | .binary operator source destination => do
    return .running (← machine.executeBinary image operator source destination)
  | .negq operand => do
    let value ← machine.read operand
    return .running (← machine.write operand (-value))
  | .set condition destination => do
    let value := Word.ofBool (condition.holds machine.flags.1 machine.flags.2)
    return .running (← machine.write destination value)
  | .pushq operand => do
    return .running (← machine.push (← machine.read operand))
  | .popq operand => do
    let (word, machine) ← machine.pop
    return .running (← machine.write operand word)
  | .callq label _ => do
    machine.checkAlignment label
    match Service.ofName? label with
    | some service => return .running (← machine.serve service)
    | none =>
      let machine ← machine.pushReturnAddress
      return .running (machine.continueAt (← image.label label))
  | .callIndirect target _ => do
    machine.checkAlignment target.text
    let number ← image.decode (← machine.read target)
    return .running ((← machine.pushReturnAddress).continueAt number)
  | .jump label => do
    return .running (machine.continueAt (← image.label label))
  | .jumpIf condition label =>
    if condition.holds machine.flags.1 machine.flags.2 then do
      return .running (machine.continueAt (← image.label label))
    else .ok (.running machine)
  | .jumpIndirect target => do
    return .running (machine.continueAt (← image.decode (← machine.read target)))
  | .retq => do
    let (address, machine) ← machine.pop
    if address = Image.haltAddress then return .halted machine
    return .running (machine.continueAt (← image.decode address))
  | .comment _ => .ok (.running machine)
  | .tailJump target arguments =>
    .error (.invalidInstruction (Instruction.tailJump target arguments).text)

/-- Fetches the next instruction and runs it. -/
def step (image : Image) (machine : Machine) : Except MachineError Progress :=
  match image.code[machine.next]? with
  | none => .error .fellOffEnd
  | some instruction => (machine.continueAt (machine.next + 1)).execute image instruction

/-- The machine before anything was mapped but the stack. -/
def initial : Machine :=
  { nextHeap := heapBase
    memory := { regions := [⟨⟨stackTop - stackSize, stackTop⟩, .stack⟩] } }

/-- The machine at the entry point of a program. -/
def start (image : Image) : Except MachineError Machine := do
  let some number := image.labels[Name.entryPoint]? | throw .missingMain
  let machine := (initial.continueAt number).setRegister .rsp stackTop
  machine.push Image.haltAddress

end Machine

/-- What a finished run did. -/
structure Execution where
  /-- The words printed, in order. -/
  output : List Word
  /-- The value in `%rax` at the end. -/
  exitCode : Word
  /-- How often the collector ran. -/
  collections : Nat
  /-- The number of steps. -/
  steps : Nat

/-- A run, finished or not. -/
structure Run where
  /-- What the run was seen to do, in order. -/
  events : List Event
  /-- How it ended. -/
  result : Except MachineError Execution

/-- The words printed, in order. -/
def Event.output (events : List Event) : List Word :=
  events.filterMap fun
    | .printed word => some word
    | .collected _ _ => none

/-- The number of collections. -/
def Event.collections (events : List Event) : Nat :=
  events.countP fun
    | .printed _ => false
    | .collected _ _ => true

namespace Machine

/-- The run that ended on the given machine after so many steps. -/
def finish (machine : Machine) (steps : Nat) : Run :=
  let events := machine.events.reverse
  { events
    result := .ok {
      output := Event.output events
      exitCode := machine.register .rax
      collections := Event.collections events
      steps } }

/-- Runs until the program returns, for the rest of the steps that `limit` allows. -/
def runFor (image : Image) (limit : Nat) : (remaining : Nat) → Machine → Run
  | 0, machine => ⟨machine.events.reverse, .error (.outOfSteps limit)⟩
  | remaining + 1, machine =>
    let events := machine.events
    match machine.step image with
    | .error error => ⟨events.reverse, .error error⟩
    | .ok (.halted machine) => machine.finish (limit - remaining)
    | .ok (.running machine) => runFor image limit remaining machine

/-- The limit on the number of steps of a run for which none is given. -/
def defaultLimit : Nat := 10000000

end Machine

/-- Runs a finished program for at most so many steps. -/
def X86.Program.run (program : X86.Program) (limit : Nat) : Run :=
  let image := Image.ofProgram program
  match Machine.start image with
  | .error error => ⟨[], .error error⟩
  | .ok machine => machine.runFor image limit limit

end TupleLang
