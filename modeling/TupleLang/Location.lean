import Std.Data.ExtTreeSet
import TupleLang.Config
import TupleLang.X86.Instruction

/-!
# Locations

A location is where a value can be kept while code runs: a variable, or a register that variables
may live in.  Registers that are not allocatable are no locations, since they never compete with a
variable for anything.

`Instruction.reads` and `Instruction.writes` list the locations whose values an instruction needs
and those whose values it changes.  A call changes every allocatable register that a call may
change.
-/

namespace TupleLang

open X86 (Register Operand Instruction)

/-- A variable or a register. -/
inductive Location where
  | var (name : Name)
  | register (register : Register)
  deriving DecidableEq

namespace Location

/-- The text of a location. -/
def text : Location → String
  | var name => name
  | register full => "%" ++ full.name

/-- Variables come before registers, and registers come in the order of their numbers. -/
def rank : Location → Nat
  | var _ => 0
  | register full => full.number + 1

/-- The name that tells variables apart. -/
def name : Location → String
  | var name => name
  | register full => full.name

/-- A location is known by its rank and its name. -/
theorem eq_of_rank_of_name {a b : Location} (hrank : a.rank = b.rank) (hname : a.name = b.name) :
    a = b := by
  cases a <;> cases b <;> simp_all [rank, name]
  exact Register.number_inj hrank

/-- Locations are ordered by rank, and then by name. -/
instance : Ord Location :=
  ⟨compareLex (compareOn rank) (compareOn name)⟩

instance : Std.TransOrd Location :=
  inferInstanceAs (Std.TransCmp (compareLex (compareOn rank) (compareOn name)))

instance : Std.LawfulEqOrd Location where
  eq_of_compare {a b} h := by
    have h : compareLex (compareOn rank) (compareOn name) a b = .eq := h
    simp only [compareLex_eq_eq, compareOn] at h
    exact eq_of_rank_of_name (Std.LawfulEqOrd.eq_of_compare h.1)
      (Std.LawfulEqOrd.eq_of_compare h.2)

/-- The location of a register, if variables may live in it. -/
def ofRegister? (config : Config) (full : Register) : Option Location :=
  if config.isCallerSaved full || config.isCalleeSaved full then some (register full) else none

/-- The location that an operand is, if it is one. -/
def ofOperand? (config : Config) : Operand → Option Location
  | .var name => some (var name)
  | .register full => ofRegister? config full
  | .byteRegister low => ofRegister? config low.full
  | .immediate _ | .deref _ _ | .global _ => none

end Location

/-- A set of locations whose values are needed later. -/
abbrev LiveSet := Std.ExtTreeSet Location

namespace X86.Instruction

/-- The locations whose values the instruction needs, in order and with repetitions. -/
def reads (config : Config) : Instruction → List Location
  | binary operator source destination =>
    (if operator.readsDestination then [source, destination] else [source]).filterMap
      (Location.ofOperand? config)
  | negq operand | pushq operand | jumpIndirect operand =>
    (Location.ofOperand? config operand).toList
  | callq _ arguments => arguments.filterMap (Location.ofRegister? config)
  | callIndirect target arguments | tailJump target arguments =>
    arguments.filterMap (Location.ofRegister? config) ++
      (Location.ofOperand? config target).toList
  | set _ _ | popq _ | jump _ | jumpIf _ _ | retq | comment _ => []

/-- The locations whose values the instruction changes, in order and with repetitions. -/
def writes (config : Config) : Instruction → List Location
  | binary operator _ destination =>
    if operator.writesDestination then (Location.ofOperand? config destination).toList else []
  | negq operand | set _ operand | popq operand => (Location.ofOperand? config operand).toList
  | callq _ _ | callIndirect _ _ => config.callerSaved.filterMap (Location.ofRegister? config)
  | pushq _ | tailJump _ _ | jump _ | jumpIf _ _ | jumpIndirect _ | retq | comment _ => []

end X86.Instruction

end TupleLang
