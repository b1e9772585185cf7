import Std.Data.ExtTreeMap

/-!
# Tables and numberings

A `Table` holds entries under the numbers `0`, `1`, `2`, … in the order in which they were added.

A `Numbering` numbers things by their first occurrence: something that was met before keeps the
number it has, and something new gets the next one.  It is a table of the things met so far,
together with the number of each of them.
-/

namespace TupleLang

/-- Entries numbered from zero in the order in which they were added. -/
structure Table (α : Type) where
  /-- The entries in order. -/
  entries : Array α := #[]

namespace Table

variable {α β : Type}

/-- A table of the given entries. -/
def ofList (entries : List α) : Table α :=
  ⟨entries.toArray⟩

/-- The number of entries, which is also the number of the next entry. -/
def size (table : Table α) : Nat :=
  table.entries.size

/-- Adds an entry; its number comes first. -/
def push (table : Table α) (entry : α) : Nat × Table α :=
  (table.size, ⟨table.entries.push entry⟩)

/-- The entry with the given number. -/
def get? (table : Table α) (number : Nat) : Option α :=
  table.entries[number]?

/-- The entry with the given number, or `default` if there is none. -/
def getD (table : Table α) (number : Nat) (default : α) : α :=
  table.entries.getD number default

/-- Replaces the entry with the given number. -/
def set (table : Table α) (number : Nat) (entry : α) : Table α :=
  ⟨table.entries.setIfInBounds number entry⟩

/-- Changes the entry with the given number. -/
def modify (table : Table α) (number : Nat) (f : α → α) : Table α :=
  ⟨table.entries.modify number f⟩

/-- The entries in order. -/
def toList (table : Table α) : List α :=
  table.entries.toList

/-- The numbers of the entries in order. -/
def numbers (table : Table α) : List Nat :=
  List.range table.size

/-- The entries in order, each with its number. -/
def numbered (table : Table α) : List (Nat × α) :=
  table.numbers.zip table.toList

/-- The table with every entry changed. -/
def map (f : α → β) (table : Table α) : Table β :=
  ⟨table.entries.map f⟩

/-- The texts of the entries between brackets. -/
def text (textOf : α → String) (table : Table α) : String :=
  "[" ++ ", ".intercalate (table.toList.map textOf) ++ "]"

end Table

/-- Things numbered by their first occurrence. -/
structure Numbering (α : Type) [Ord α] where
  /-- The things met so far. -/
  items : Table α := {}
  /-- The number of each of them. -/
  numbers : Std.ExtTreeMap α Nat := ∅

namespace Numbering

variable {α : Type} [Ord α] [Std.TransOrd α]

/-- How many different things were met. -/
def size (numbering : Numbering α) : Nat :=
  numbering.items.size

/-- The number of something that was met before. -/
def find? (numbering : Numbering α) (item : α) : Option Nat :=
  numbering.numbers[item]?

/-- The thing with the given number. -/
def get? (numbering : Numbering α) (number : Nat) : Option α :=
  numbering.items.get? number

/-- The number of something, which is new if it was not met before. -/
def insert (numbering : Numbering α) (item : α) : Nat × Numbering α :=
  match numbering.find? item with
  | some number => (number, numbering)
  | none =>
    let (number, items) := numbering.items.push item
    (number, ⟨items, numbering.numbers.insert item number⟩)

end Numbering

end TupleLang
