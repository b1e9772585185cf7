import TupleLang.Config
import TupleLang.X86.Program

/-!
# Building and leaving frames

Every function begins with a *prelude*, under its own name, that builds its frame and jumps to its
first block, and ends with a *conclusion* that undoes the frame and returns (`Program.enclose`).

The prelude of the entry point also asks the run-time system for the root stack and the heap.  The
collector scans every root slot, so the prelude clears them.

A tail jump leaves the frame as the conclusion does and then jumps (`FrameCode.tailJump`).  Its
target may be kept in the frame, so it is loaded into `%rax` first.
-/

namespace TupleLang.X86

namespace FrameCode

/-- The register of results. -/
def rax : Operand := .register .rax

/-- The base of the frame. -/
def rbp : Operand := .register .rbp

/-- The stack pointer. -/
def rsp : Operand := .register .rsp

/-- The top of the root stack. -/
def r15 : Operand := .register .r15

/-- Asks the run-time system for the root stack and the heap. -/
def mapHeap (config : Config) : List Instruction :=
  [.movq (.immediate (Word.ofCount config.rootStackSize)) (.register .rdi),
    .movq (.immediate (Word.ofCount config.heapSize)) (.register .rsi),
    .callq Name.mapHeap Register.runtimeArguments,
    .movq (.global Name.rootStackBegin) r15]

/-- Clears the root slots, from the given one on. -/
def clearRoots (first : Nat) : (count : Nat) → List Instruction
  | 0 => []
  | count + 1 =>
    .movq (.immediate 0) (.deref .r15 (8 * Word.ofCount first)) :: clearRoots (first + 1) count

/-- The code that builds the frame of a function and jumps to its first block. -/
def prelude (config : Config) (name : Name) (frame : Frame) : List Instruction :=
  [.pushq rbp, .movq rsp rbp] ++
    frame.calleeSaved.map (fun register => .pushq (.register register)) ++
    (if 0 < frame.stackAdjustment then [.subq (.immediate frame.stackAdjustment) rsp] else []) ++
    (if name = Name.entryPoint then mapHeap config else []) ++
    clearRoots 0 frame.rootSlots ++
    (if 0 < frame.rootSlots then [.addq (.immediate frame.rootStackBytes) r15] else []) ++
    [.jump name.startLabel]

/-- The code that undoes the frame, which leaves the return address on top of the stack. -/
def teardown (frame : Frame) : List Instruction :=
  (if 0 < frame.rootSlots then [.subq (.immediate frame.rootStackBytes) r15] else []) ++
    (if 0 < frame.stackAdjustment then [.addq (.immediate frame.stackAdjustment) rsp] else []) ++
    frame.calleeSaved.reverse.map (fun register => .popq (.register register)) ++
    [.popq rbp]

/-- The code that undoes the frame and returns. -/
def conclusion (frame : Frame) : List Instruction :=
  teardown frame ++ [.retq]

/-- The code that undoes the frame and jumps to a target. -/
def tailJump (frame : Frame) (target : Operand) : List Instruction :=
  let load := match target with
    | .global name => Instruction.leaq (.global name) rax
    | other => .movq other rax
  [load] ++ teardown frame ++ [.jumpIndirect rax]

/-- An instruction once the frame is known. -/
def expandTailJump (frame : Frame) : Instruction → List Instruction
  | .tailJump target _ => tailJump frame target
  | instruction => [instruction]

end FrameCode

/-- A function with its prelude and its conclusion. -/
def Function.enclose (config : Config) (function : Function) : Function :=
  let frame := function.frame
  let body := (function.expand (FrameCode.expandTailJump frame)).blocks
  { function with
    blocks := [⟨function.name, FrameCode.prelude config function.name frame⟩] ++ body ++
      [⟨function.name.conclusionLabel, FrameCode.conclusion frame⟩] }

/-- A program whose functions have their preludes and conclusions. -/
def Program.enclose (config : Config) (program : Program) : Program :=
  ⟨program.functions.map (Function.enclose config)⟩

end TupleLang.X86
