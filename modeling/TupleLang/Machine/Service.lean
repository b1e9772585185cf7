import TupleLang.Machine.Basic
import TupleLang.Machine.Collector

/-!
# Services

Compiled code calls three functions that are not part of the program: one prints a word, one maps
the root stack and the first heap, and one collects.  These services take their arguments in `%rdi`
and `%rsi` and leave a recognizable value in every register that a call may change, so code that
counts on such a register is found out.

Each heap begins far above the end of the one before (`Machine.heapSpacing`), so that running off
the end of a heap never reaches another one.
-/

namespace TupleLang.Machine

open X86 (Register)

/-- The first address after the stack. -/
def stackTop : Word := 0x7fff00000000

/-- The number of bytes of the stack. -/
def stackSize : Word := 0x800000

/-- The first address of the root stack. -/
def rootStackBase : Word := 0x10000000

/-- The first address of the first heap. -/
def heapBase : Word := 0x100000000

/-- Heaps begin at distances that are multiples of this. -/
def heapSpacing : Word := 0x100000000

/-- What a call leaves in the registers that it may change. -/
def clobber : Word := 0x5a5a5a5a5a5a5a5a

/-- Maps a new heap of the given size. -/
def mapHeap (machine : Machine) (size : Word) : AddressRange × Machine :=
  let heap : AddressRange := ⟨machine.nextHeap, machine.nextHeap + size⟩
  (heap, { machine with
    memory := machine.memory.map { heap with kind := .heap }
    nextHeap := machine.nextHeap + (size / heapSpacing + 1) * heapSpacing })

/-- Maps the root stack and the first heap. -/
def setUp (machine : Machine) (rootStackSize heapSize : Word) : Machine :=
  let rootStack : Region := ⟨⟨rootStackBase, rootStackBase + rootStackSize⟩, .rootStack⟩
  let (heap, machine) := { machine with memory := machine.memory.map rootStack }.mapHeap heapSize
  ({ machine with heap? := some heap }.setGlobal Name.rootStackBegin rootStackBase).setGlobal
    Name.freePointer heap.start |>.setGlobal Name.fromspaceEnd heap.finish

/-- Copies what can be reached from the root stack below `rootStackTop` into a new heap, which has
room for at least so many bytes more than were in use. -/
def collect (machine : Machine) (rootStackTop bytes : Word) : Except MachineError Machine := do
  let some old := machine.heap? | throw (.noHeap Name.collector)
  let rootStackBegin ← machine.global Name.rootStackBegin
  let used := (← machine.global Name.freePointer) - old.start
  let (heap, machine) := machine.mapHeap (max (old.finish - old.start) (used + bytes))
  let copying ← Copying.collect old rootStackBegin rootStackTop heap.start machine.memory
  let machine := { machine with
    memory := copying.memory.unmap old.start
    heap? := some heap }
  return ((machine.setGlobal Name.freePointer copying.free).setGlobal Name.fromspaceEnd
    heap.finish).record (.collected (copying.free - heap.start) used)

/-- Leaves the recognizable value in every register that a call may change. -/
def clobberRegisters (machine : Machine) : Machine :=
  Register.callerSaved.foldl (fun machine register => machine.setRegister register clobber) machine

/-- The services that programs can call. -/
inductive Service where
  /-- Prints the first argument. -/
  | printInt
  /-- Maps a root stack and a heap of the given sizes. -/
  | mapHeap
  /-- Collects, given the top of the root stack and the number of bytes needed. -/
  | collect
  deriving DecidableEq

/-- The service with the given name. -/
def Service.ofName? (name : Name) : Option Service :=
  if name = Name.printInt then some .printInt
  else if name = Name.mapHeap then some .mapHeap
  else if name = Name.collector then some .collect
  else none

/-- Carries out a call of a service. -/
def serve (machine : Machine) (service : Service) : Except MachineError Machine := do
  let first := machine.register .rdi
  let second := machine.register .rsi
  let machine ← match service with
    | .printInt => pure (machine.record (.printed first))
    | .mapHeap => pure (machine.setUp first second)
    | .collect => machine.collect first second
  return machine.clobberRegisters

end TupleLang.Machine
