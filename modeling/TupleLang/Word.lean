/-!
# Machine words

A `Word` is a 64-bit two's-complement integer; its arithmetic wraps.  Counts and sizes are natural
numbers and become words by `Word.ofCount`, which also wraps.

`Word.text` is the usual decimal form, and `Word.hex` the form in which addresses are reported:
the bits of the word read as a natural number, in lower-case hexadecimal after `0x`.
-/

namespace TupleLang

/-- A 64-bit two's-complement integer. -/
abbrev Word := Int64

namespace Word

/-- The word with the low 64 bits of a count. -/
def ofCount (count : Nat) : Word :=
  Int64.ofNat count

/-- The word of a truth value: `1` for true and `0` for false. -/
def ofBool (value : Bool) : Word :=
  if value then 1 else 0

/-- The count a word stands for, unless it is negative. -/
def toCount? (word : Word) : Option Nat :=
  if word < 0 then none else some word.toInt.toNat

/-- Whether the word fits in 32 bits as a two's-complement integer. -/
def isNarrow (word : Word) : Bool :=
  decide (-2147483648 ≤ word) && decide (word ≤ 2147483647)

/-- Decimal digits, after a minus sign if the word is negative. -/
def text (word : Word) : String :=
  toString word.toInt

/-- The bits of the word in lower-case hexadecimal, after `0x`. -/
def hex (word : Word) : String :=
  "0x" ++ String.ofList (Nat.toDigits 16 word.toUInt64.toNat)

end Word

end TupleLang
