/-!
# Names

Variables, functions, labels and the globals of the run-time system are all named by arbitrary
texts, which are compared character by character.

A name that holds the mark `Name.separator` is *generated* (`Name.isGenerated`): a program as
written may bind no such name, so whatever a `NameSupply` hands out is new to it.  A supply is
only the number of names it has handed out; each name carries the next number, whatever its base,
so two names of one supply never agree in their numbers.

Every function owns two labels, `Name.startLabel` and `Name.conclusionLabel`, and the run-time
system owns the names of `Name.reserved`.
-/

namespace TupleLang

/-- The name of a variable, a function, a label or a global of the run-time system. -/
abbrev Name := String

namespace Name

/-- The mark between the base and the number of a generated name. -/
def separator : Char := '.'

/-- A name is generated when it holds the separator, wherever it stands. -/
def isGenerated (name : Name) : Bool :=
  name.toList.contains separator

/-- The label of the first block of a function's body. -/
def startLabel (function : Name) : Name :=
  function ++ ".start"

/-- The label of the block that tears a function's frame down and returns. -/
def conclusionLabel (function : Name) : Name :=
  function ++ ".conclusion"

/-- The function that top-level statements belong to, where execution begins. -/
def entryPoint : Name := "main"

/-- The run-time function that prints a word. -/
def printInt : Name := "print_int"

/-- The run-time function that maps the root stack and the heap. -/
def mapHeap : Name := "initialize"

/-- The run-time function that makes room in the heap. -/
def collector : Name := "collect"

/-- The global that holds the first free address of the heap. -/
def freePointer : Name := "free_ptr"

/-- The global that holds the end of the current heap. -/
def fromspaceEnd : Name := "fromspace_end"

/-- The global that holds the first address of the root stack. -/
def rootStackBegin : Name := "rootstack_begin"

/-- The names that no program may bind: they belong to the run-time system or to the entry
point. -/
def reserved : List Name :=
  [entryPoint, printInt, mapHeap, collector, freePointer, fromspaceEnd, rootStackBegin]

end Name

/-- A source of new names, given by how many it has handed out. -/
structure NameSupply where
  /-- How many names have been handed out. -/
  issued : Nat := 0

namespace NameSupply

/-- The name that is handed out as number `number` for the base `base`. -/
def nameAt (base : String) (number : Nat) : Name :=
  base ++ "." ++ toString number

/-- Hands out the next name for `base`, together with the supply that remains. -/
def fresh (base : String) (supply : NameSupply) : Name × NameSupply :=
  (nameAt base (supply.issued + 1), ⟨supply.issued + 1⟩)

end NameSupply

end TupleLang
