import Std.Data.ExtTreeMap
import TupleLang.Name
import TupleLang.Word

/-!
# Memory of the machine

Memory is made of 8-byte words and is mapped in regions.  An address outside all regions cannot be
used at all.  Words of the stack must be written before they are read; the run-time system hands
out the other regions cleared.

`MachineError` lists what can go wrong while code runs, here and elsewhere in the machine.
-/

namespace TupleLang

/-- Why the machine stopped before the program returned. -/
inductive MachineError where
  | missingMain
  | unknownLabel (label : Name)
  | unknownGlobal (name : Name)
  | unmappedAddress (address : Word)
  | misalignedAddress (address : Word)
  | uninitializedRead (address : Word)
  | invalidCodeAddress (address : Word)
  /-- The stack pointer is no multiple of sixteen at a call. -/
  | misalignedCall (target : String) (stackPointer : Word)
  | invalidInstruction (text : String)
  /-- A function of the run-time system was called before there was a heap. -/
  | noHeap (function : Name)
  | fellOffEnd
  | outOfSteps (limit : Nat)
  deriving DecidableEq

/-- The error in words. -/
def MachineError.message : MachineError → String
  | missingMain => "there is no `main` function"
  | unknownLabel label => "jump to unknown label `" ++ label ++ "`"
  | unknownGlobal name => "access to unknown global `" ++ name ++ "`"
  | unmappedAddress address => "address " ++ address.hex ++ " is not mapped"
  | misalignedAddress address => "address " ++ address.hex ++ " is not 8-byte aligned"
  | uninitializedRead address => "read of uninitialized stack word at " ++ address.hex
  | invalidCodeAddress address => address.hex ++ " is not a code address"
  | misalignedCall target stackPointer =>
    "stack pointer " ++ stackPointer.hex ++ " is not 16-byte aligned at a call to `" ++ target ++
      "`"
  | invalidInstruction text => "`" ++ text ++ "` cannot be executed"
  | noHeap function => "`" ++ function ++ "` was called before `initialize`"
  | fellOffEnd => "execution ran past the last instruction"
  | outOfSteps limit => "the program did not halt within " ++ toString limit ++ " steps"

/-- What a region is used for. -/
inductive RegionKind where
  | stack
  | rootStack
  | heap
  deriving DecidableEq

/-- The addresses from `start` on, below `finish`. -/
structure AddressRange where
  /-- The first address. -/
  start : Word
  /-- The first address after the range. -/
  finish : Word

/-- Whether an address lies in the range. -/
def AddressRange.contains (range : AddressRange) (address : Word) : Bool :=
  decide (range.start ≤ address) && decide (address < range.finish)

/-- A mapped part of memory. -/
structure Region extends AddressRange where
  /-- What the region is used for. -/
  kind : RegionKind

/-- The memory of the machine. -/
structure Memory where
  /-- The words that were written. -/
  words : Std.ExtTreeMap Word Word := ∅
  /-- The regions, in the order in which they were mapped. -/
  regions : List Region := []

namespace Memory

/-- Maps one more region. -/
def map (memory : Memory) (region : Region) : Memory :=
  { memory with regions := memory.regions ++ [region] }

/-- Takes away the first region with the given start, and what was written there. -/
def unmap (memory : Memory) (start : Word) : Memory :=
  match memory.regions.find? (·.start == start) with
  | none => memory
  | some region =>
    { words := memory.words.filter fun address _ => !region.contains address
      regions := memory.regions.eraseP (·.start == start) }

/-- The region of an address, which is the first one that has it. -/
def region (memory : Memory) (address : Word) : Except MachineError Region :=
  if address % 8 ≠ 0 then .error (.misalignedAddress address)
  else
    match memory.regions.find? (·.contains address) with
    | some region => .ok region
    | none => .error (.unmappedAddress address)

/-- The word at an address. -/
def load (memory : Memory) (address : Word) : Except MachineError Word := do
  let region ← memory.region address
  match memory.words[address]? with
  | some word => return word
  | none => if region.kind = .stack then throw (.uninitializedRead address) else return 0

/-- Puts a word at an address. -/
def store (memory : Memory) (address word : Word) : Except MachineError Memory := do
  let _ ← memory.region address
  return { memory with words := memory.words.insert address word }

variable {memory stored : Memory} {address word : Word}

/-- A word can only be stored in a region, and nothing but the word changes. -/
theorem exists_region_of_store (h : memory.store address word = .ok stored) :
    ∃ region, memory.region address = .ok region ∧
      stored = { memory with words := memory.words.insert address word } := by
  unfold store at h
  cases hregion : memory.region address with
  | error error => simp [hregion, bind, Except.bind] at h
  | ok region =>
    simp only [hregion, bind, Except.bind, pure, Except.pure, Except.ok.injEq] at h
    exact ⟨region, rfl, h.symm⟩

/-- Storing a word maps and unmaps nothing. -/
theorem regions_of_store (h : memory.store address word = .ok stored) :
    stored.regions = memory.regions := by
  obtain ⟨_, -, rfl⟩ := exists_region_of_store h
  rfl

/-- A word that was stored is found again. -/
theorem load_of_store (h : memory.store address word = .ok stored) :
    stored.load address = .ok word := by
  obtain ⟨region, hregion, rfl⟩ := exists_region_of_store h
  have hsame : ({ memory with words := memory.words.insert address word } : Memory).region
      address = .ok region := hregion
  simp [load, hsame, bind, Except.bind, pure, Except.pure]

end Memory

end TupleLang
