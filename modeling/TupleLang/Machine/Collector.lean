import TupleLang.Header
import TupleLang.Machine.Memory

/-!
# The copying collector

A collection copies the tuples that can be reached from the root stack into a new part of memory
and changes every pointer to them.  `Copying.relocate` does this for one word of memory: if it
points into the old heap, the tuple there is copied, unless that was done before, and the word is
made to point to the copy.  A copied tuple has the address of its copy in the place of its header,
and headers are told from addresses by their lowest bit.

First the words of the root stack are relocated, then the pointers among the fields of the copies,
in the order in which the copies were made; relocating those makes more copies, which are scanned
in their turn (`Copying.scan`).
-/

namespace TupleLang

/-- A collection under way. -/
structure Copying where
  /-- The memory. -/
  memory : Memory
  /-- The first free address of the new heap. -/
  free : Word

namespace Copying

/-- Copies words, lowest address first. -/
def copyWords (source target : Word) : (count : Nat) → Memory → Except MachineError Memory
  | 0, memory => .ok memory
  | count + 1, memory => do
    let word ← memory.load source
    let memory ← memory.store target word
    copyWords (source + 8) (target + 8) count memory

/-- The address of the copy of a tuple, which is made unless it is there already. -/
def copy (copying : Copying) (tuple : Word) : Except MachineError (Word × Copying) := do
  let tag ← copying.memory.load tuple
  if !Header.isTag tag then return (tag, copying)
  let length := Header.length tag
  let target := copying.free
  let memory ← copyWords tuple target (length.toInt.toNat + 1) copying.memory
  let memory ← memory.store tuple target
  return (target, ⟨memory, target + 8 * (length + 1)⟩)

/-- Makes the word at an address point to the copy of the tuple it points to, if that is in the
old heap. -/
def relocate (old : AddressRange) (copying : Copying) (address : Word) :
    Except MachineError Copying := do
  let word ← copying.memory.load address
  if !old.contains word then return copying
  let (target, copying) ← copying.copy word
  let memory ← copying.memory.store address target
  return { copying with memory }

/-- Relocates so many words, from an address on. -/
def relocateWords (old : AddressRange) (address : Word) :
    (count : Nat) → Copying → Except MachineError Copying
  | 0, copying => .ok copying
  | count + 1, copying => do
    let copying ← copying.relocate old address
    relocateWords old (address + 8) count copying

/-- Relocates the fields of a tuple that its mask marks as pointers: `count` fields from number
`field` on. -/
def relocateFields (old : AddressRange) (tuple mask : Word) (field : Nat) :
    (count : Nat) → Copying → Except MachineError Copying
  | 0, copying => .ok copying
  | count + 1, copying => do
    let copying ←
      if Header.marks mask field then
        copying.relocate old (tuple + 8 * (Word.ofCount field + 1))
      else pure copying
    relocateFields old tuple mask (field + 1) count copying

/-- The number of words of the address space.  The scan moves up by one word at least each time,
so it never takes more turns. -/
def addressSpaceWords : Nat := 0x2000000000000000

/-- Relocates the fields of the copies from the address `tuple` on, until all copies were
scanned. -/
def scan (old : AddressRange) : (turns : Nat) → (tuple : Word) → Copying →
    Except MachineError Copying
  | 0, _, copying => .ok copying
  | turns + 1, tuple, copying => do
    if tuple < copying.free then
      let tag ← copying.memory.load tuple
      let length := Header.length tag
      let copying ←
        copying.relocateFields old tuple (Header.pointerMask tag) 0 length.toInt.toNat
      scan old turns (tuple + 8 * (length + 1)) copying
    else return copying

/-- The number of words from an address on, below another. -/
def wordsBetween (start finish : Word) : Nat :=
  ((finish.toInt - start.toInt + 7) / 8).toNat

/-- Copies everything that can be reached from the words between two addresses into the new heap,
which begins at `target`. -/
def collect (old : AddressRange) (rootsBegin rootsEnd target : Word) (memory : Memory) :
    Except MachineError Copying := do
  let copying ←
    relocateWords old rootsBegin (wordsBetween rootsBegin rootsEnd) ⟨memory, target⟩
  copying.scan old addressSpaceWords target

end Copying

end TupleLang
