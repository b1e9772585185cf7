/-!
# Texts

`Text.isBlank` holds exactly of the characters with the Unicode property `White_Space`,
`Text.trimEnd` removes the blanks at the end of a text, and `Text.lineCount` counts its lines.

An outline shows how a value is built: the name of its constructor, then its parts, either in
order between parentheses (`Outline.tagged`) or named between braces (`Outline.record`).  Lists are
outlined between brackets (`Outline.list`).
-/

namespace TupleLang

namespace Text

/-- The code points with the Unicode property `White_Space`. -/
def isBlank (c : Char) : Bool :=
  let n := c.toNat
  (9 ≤ n && n ≤ 13) || n == 0x20 || n == 0x85 || n == 0xa0 || n == 0x1680 ||
    (0x2000 ≤ n && n ≤ 0x200a) || n == 0x2028 || n == 0x2029 || n == 0x202f || n == 0x205f ||
    n == 0x3000

/-- The text without the blanks at its end. -/
def trimEnd (text : String) : String :=
  String.ofList (text.toList.reverse.dropWhile isBlank).reverse

/-- The number of lines of a text.  A newline ends a line, and what follows the last one is a line
of its own unless it is empty. -/
def lineCount (text : String) : Nat :=
  let chars := text.toList
  chars.count '\n' + if chars.getLast?.any (· ≠ '\n') then 1 else 0

end Text

namespace Outline

/-- A list: the outlines of its members between brackets. -/
def list (items : List String) : String :=
  "[" ++ ", ".intercalate items ++ "]"

/-- A constructor with its parts in order. -/
def tagged (constructor : String) (parts : List String) : String :=
  constructor ++ "(" ++ ", ".intercalate parts ++ ")"

/-- A pair, or a longer tuple, of parts. -/
def tuple (parts : List String) : String :=
  tagged "" parts

/-- A constructor with named parts. -/
def record (constructor : String) (parts : List (String × String)) : String :=
  constructor ++ " \x7b " ++ ", ".intercalate (parts.map fun (field, part) => field ++ ": " ++ part)
    ++ " \x7d"

end Outline

end TupleLang
