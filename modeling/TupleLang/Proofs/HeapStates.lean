import TupleLang.Proofs.Addresses

/-!
# Heaps between collections

A heap in use is a row of tuples without gaps (`Memory.Tuples`), from its start up to the free
pointer.  `Machine.CanCollect` says of a machine that its heap is such a row, that the root slots
are words of the root stack, that root slots and fields marked as pointers do not point into the
middle of anything, and that there is room for the next heap.

The tuples that matter are those that can be reached from the root slots (`Machine.Reachable`).
`Machine.Collected` relates the machine after a collection to the one before it: the tuples of the
new heap are the reachable ones under new addresses, and every pointer to one of them was changed
accordingly.
-/

namespace TupleLang

/-- The words from `start` on, below `finish`, are tuples without gaps between them.  The list has
their addresses. -/
inductive Memory.Tuples (memory : Memory) : (start finish : Word) → List Word → Prop
  | nil (address : Word) : memory.Tuples address address []
  | cons {tuple tag finish : Word} {tuples : List Word} (hload : memory.load tuple = .ok tag)
      (htag : Header.isTag tag = true) (hlt : tuple < tuple.nth (Header.fieldCount tag + 1))
      (htuples : memory.Tuples (tuple.nth (Header.fieldCount tag + 1)) finish tuples) :
      memory.Tuples tuple finish (tuple :: tuples)

/-- An address in the range at which a word can stand. -/
def AddressRange.HasWord (range : AddressRange) (address : Word) : Prop :=
  address % 8 = 0 ∧ range.contains address = true

namespace Machine

/-- The size of the heap that a collection maps. -/
def nextHeapSize (heap : AddressRange) (free bytes : Word) : Word :=
  max (heap.finish - heap.start) (free - heap.start + bytes)

/-- The addresses of the heap that a collection maps. -/
def nextHeapRange (machine : Machine) (heap : AddressRange) (free bytes : Word) : AddressRange where
  start := machine.nextHeap
  finish := machine.nextHeap + nextHeapSize heap free bytes

/-- The heap of the machine is in order, so that it can collect.  The root slots are the words of
`roots`, `free` is the free pointer, and `tuples` are the tuples of the heap. -/
structure CanCollect (machine : Machine) (heap roots : AddressRange) (free : Word)
    (tuples : List Word) (bytes : Word) : Prop where
  heap_eq : machine.heap? = some heap
  free_eq : machine.global Name.freePointer = .ok free
  rootsBegin_eq : machine.global Name.rootStackBegin = .ok roots.start
  /-- The heap is the region that is mapped where it begins, and its size is a number. -/
  heap_mapped : machine.memory.regions.find? (·.start == heap.start) = some ⟨heap, .heap⟩
  heap_size : 0 ≤ heap.finish - heap.start
  row : machine.memory.Tuples heap.start free tuples
  free_le : free ≤ heap.finish
  roots_aligned : roots.start % 8 = 0 ∧ roots.finish % 8 = 0
  roots_mapped : ∀ slot, roots.HasWord slot →
    ∃ region ∈ machine.memory.regions, region.kind = .rootStack ∧ region.contains slot = true
  /-- A root slot that points into the heap points to a tuple. -/
  root_mem : ∀ slot word, roots.HasWord slot → machine.load slot = .ok word →
    heap.contains word = true → word ∈ tuples
  /-- So does a field that is marked as a pointer. -/
  field_mem : ∀ tuple ∈ tuples, ∀ tag, machine.load tuple = .ok tag →
    ∀ i < Header.fieldCount tag, Header.marks (Header.pointerMask tag) i = true →
    ∀ word, machine.load (tuple.nth (i + 1)) = .ok word → heap.contains word = true →
    word ∈ tuples
  regions_apart : machine.memory.RegionsApart
  /-- The next heap is a range of addresses, which does not wrap, and it is free. -/
  next_aligned : machine.nextHeap % 8 = 0
  next_le : machine.nextHeap ≤ (machine.nextHeapRange heap free bytes).finish
  next_apart : ∀ region ∈ machine.memory.regions,
    region.Apart (machine.nextHeapRange heap free bytes)

/-- The tuples that can be reached from the root slots: through a root slot that holds an address
of the heap, or through a field of a reachable tuple that is marked as a pointer. -/
inductive Reachable (machine : Machine) (heap roots : AddressRange) : Word → Prop
  | root {slot tuple : Word} (hslot : roots.HasWord slot) (hload : machine.load slot = .ok tuple)
      (hheap : heap.contains tuple = true) : machine.Reachable heap roots tuple
  | field {parent tag tuple : Word} {i : Nat} (hparent : machine.Reachable heap roots parent)
      (htag : machine.load parent = .ok tag) (hi : i < Header.fieldCount tag)
      (hmarks : Header.marks (Header.pointerMask tag) i = true)
      (hload : machine.load (parent.nth (i + 1)) = .ok tuple)
      (hheap : heap.contains tuple = true) : machine.Reachable heap roots tuple

/-- What becomes of a word that may point into the heap, when the tuples there move. -/
def moved (heap : AddressRange) (newAddress : Word → Word) (word : Word) : Word :=
  if heap.contains word then newAddress word else word

/-- The second machine has collected: its heap holds the tuples that could be reached, under new
addresses. -/
structure Collected (machine machine' : Machine) (heap roots heap' : AddressRange) (free' : Word)
    (tuples' : List Word) (newAddress : Word → Word) : Prop where
  heap_eq : machine'.heap? = some heap'
  free_eq : machine'.global Name.freePointer = .ok free'
  fromspaceEnd_eq : machine'.global Name.fromspaceEnd = .ok heap'.finish
  next_aligned : machine'.nextHeap % 8 = 0
  /-- The new heap is in order as well, and has just those tuples. -/
  row : machine'.memory.Tuples heap'.start free' tuples'
  free_le : free' ≤ heap'.finish
  mem_tuples : ∀ tuple, tuple ∈ tuples' ↔
    ∃ origin, machine.Reachable heap roots origin ∧ newAddress origin = tuple
  /-- No two tuples get the same address. -/
  injective : ∀ a b, machine.Reachable heap roots a → machine.Reachable heap roots b →
    newAddress a = newAddress b → a = b
  /-- A tuple keeps its header, and so its length and its pointer mask. -/
  tag : ∀ tuple, machine.Reachable heap roots tuple →
    ∃ tag, machine.load tuple = .ok tag ∧ machine'.load (newAddress tuple) = .ok tag
  /-- A field that is not a pointer is kept, and one that is follows what it points to. -/
  field : ∀ tuple tag, machine.Reachable heap roots tuple → machine.load tuple = .ok tag →
    ∀ i < Header.fieldCount tag, ∃ word, machine.load (tuple.nth (i + 1)) = .ok word ∧
      machine'.load ((newAddress tuple).nth (i + 1)) =
        .ok (if Header.marks (Header.pointerMask tag) i then moved heap newAddress word else word)
  /-- So does a root slot. -/
  root : ∀ slot, roots.HasWord slot → ∃ word, machine.load slot = .ok word ∧
    machine'.load slot = .ok (moved heap newAddress word)
  /-- Nothing else changes outside the two heaps. -/
  unchanged : ∀ address, heap.contains address = false → heap'.contains address = false →
    ¬ roots.HasWord address → machine'.load address = machine.load address

end Machine

end TupleLang
