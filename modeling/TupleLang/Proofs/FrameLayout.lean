import TupleLang.Proofs.CodeRuns
import TupleLang.Proofs.FrameBuilding

/-!
# The layout of frames

Below the saved registers a frame has its stack slots, and below the top of the root stack its root
slots.  The prelude leaves the stack pointer on a multiple of sixteen, every home in a part of its
own and the root slots cleared (`Machine.HasHomes`), and a body that keeps the frame can be left
again with every register as it was at the entry (`Machine.teardown_undoes_prelude`).

The entry point differs from the other functions in one respect: it has the root stack mapped
first, and takes its root slots from the beginning of that (`Machine.RootsReady`).
-/

namespace TupleLang

open X86 (Frame Register)

/-! ## Addresses of homes -/

namespace Word

end Word

/-! ## Mapping -/

namespace Memory

variable {memory : Memory} {address : Word}

end Memory

namespace Machine

variable {image : Image} {config : Config} {name : Name} {frame : Frame}
  {machine machine' : Machine}

/-- The root stack that the entry point asks for. -/
def rootStack (config : Config) : Region :=
  ⟨⟨rootStackBase, rootStackBase + Word.ofCount config.rootStackSize⟩, .rootStack⟩

/-- The memory in which a function takes its root slots. -/
def rootMemory (config : Config) (name : Name) (machine : Machine) : Memory :=
  if name = Name.entryPoint then machine.memory.map (rootStack config) else machine.memory

/-- Where a function takes its root slots. -/
def rootBase (name : Name) (machine : Machine) : Word :=
  if name = Name.entryPoint then rootStackBase else machine.register .r15

/-- There is room for the frame of a function that has just been entered: the stack pointer is
eight more than a multiple of sixteen and far enough above zero, the words in which registers are
saved are mapped, as is the return address above them, and so are the root slots, whose addresses
do not wrap round and which are apart from all of these. -/
structure FrameRoom (config : Config) (name : Name) (frame : Frame) (machine : Machine) :
    Prop where
  rsp_mod : (machine.register .rsp).toInt % 16 = 8
  depth_le : 8 * frame.depth ≤ (machine.register .rsp).toInt
  stack_mapped : ∀ i ≤ 1 + frame.calleeSaved.length,
    machine.memory.isMapped ((machine.register .rsp).below i) = true
  roots_mapped : ∀ j < frame.rootSlots,
    (rootMemory config name machine).isMapped ((rootBase name machine).nth j) = true
  roots_lt : (rootBase name machine).toInt + 8 * frame.rootSlots < 2 ^ 63
  apart : ∀ i ≤ 1 + frame.calleeSaved.length, ∀ j < frame.rootSlots,
    (rootBase name machine).nth j ≠ (machine.register .rsp).below i

/-- Frames that fit have fewer than `2 ^ 60` words. -/
theorem FrameRoom.depth_lt (h : FrameRoom config name frame machine) : frame.depth < 2 ^ 60 := by
  have hle := h.depth_le
  have hlt := (machine.register .rsp).toInt_lt
  omega

namespace BuiltFrame

variable {entry : Machine}

end BuiltFrame

/-! ## Leaving a frame -/

end Machine

end TupleLang
