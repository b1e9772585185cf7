import Std.Data.ExtTreeMap
import TupleLang.Ty
import TupleLang.X86.Instruction

/-!
# Functions and programs of instructions

A function is a list of labelled blocks, together with the types of its variables and the layout
of its frame.  The frame is empty until variables have homes.

Below the return address and the saved base pointer a frame holds the saved registers
(`Frame.calleeSaved`, in the order in which they are pushed), then the stack slots.  Root slots
live on the root stack, just below the address in `%r15`.  `Frame.stackAdjustment` makes room for
the stack slots and adds one more word when that is needed to keep the stack pointer a multiple of
sixteen.
-/

namespace TupleLang.X86

/-- A labelled sequence of instructions. -/
structure Block where
  /-- The label under which the block is reached. -/
  label : Name
  /-- The instructions in order. -/
  instructions : List Instruction
  deriving DecidableEq

/-- The layout of a function's frame. -/
structure Frame where
  /-- The number of words below the saved registers. -/
  stackSlots : Nat := 0
  /-- The number of words on the root stack, which the collector scans. -/
  rootSlots : Nat := 0
  /-- The registers that the function saves, in the order in which they are pushed. -/
  calleeSaved : List Register := []
  deriving DecidableEq

namespace Frame

/-- The number of bytes to take off the stack pointer once the registers have been saved. -/
def stackAdjustment (frame : Frame) : Word :=
  8 * Word.ofCount (frame.stackSlots + (frame.calleeSaved.length + frame.stackSlots) % 2)

/-- The number of bytes of the root slots. -/
def rootStackBytes (frame : Frame) : Word :=
  8 * Word.ofCount frame.rootSlots

/-- The home of a stack slot, below the given number of saved registers. -/
def stackSlot (calleeSaved index : Nat) : Operand :=
  .deref .rbp (-8 * (Word.ofCount calleeSaved + Word.ofCount index + 1))

/-- The home of a root slot. -/
def rootSlot (index : Nat) : Operand :=
  .deref .r15 (-8 * (Word.ofCount index + 1))

end Frame

/-- A function. -/
structure Function where
  /-- The name of the function, which is also the label of its entry. -/
  name : Name
  /-- The blocks in order, the first one first. -/
  blocks : List Block
  /-- The types of the variables. -/
  variableTypes : Std.ExtTreeMap Name Ty := ∅
  /-- The layout of the frame. -/
  frame : Frame := {}

/-- The instructions of a function, block after block. -/
def Function.instructions (function : Function) : List Instruction :=
  function.blocks.flatMap Block.instructions

/-- A function with each instruction replaced by a sequence of instructions. -/
def Function.expand (f : Instruction → List Instruction) (function : Function) : Function :=
  { function with
    blocks := function.blocks.map fun block =>
      { block with instructions := block.instructions.flatMap f } }

/-- A program: its functions in order. -/
structure Program where
  /-- The functions in order. -/
  functions : List Function

end TupleLang.X86
