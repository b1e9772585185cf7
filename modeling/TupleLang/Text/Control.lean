/-!
# Removing terminal control sequences

`Text.visible` keeps of a text what a terminal would print, and the line breaks.  It reads the
text one character at a time and remembers in a `Terminal` state whether it is inside a control
sequence.  An escape character opens a sequence from every state, and the cancelling characters
CAN and SUB end every sequence.  After an escape character,

* `[` opens a *command*, which ends with a character from `@` to `~`;
* `]` opens a *title*, which ends with the bell;
* `P` opens a *device string*, whose head is a sequence of parameters and intermediate characters
  that a character from `@` to `~` closes, and whose data then run up to the byte `9C`;
* `X`, `^` and `_` open a *string* without an end of its own, and a device string with a malformed
  head becomes one;
* a character from blank to `/` announces one more character before the sequence ends, and any
  other character ends the sequence at once.

The data of a device string are bytes, so a character ends them when its UTF-8 form holds the byte
`9C`.  The bytes that follow it in the same character stand alone (`Terminal.strayBytes`): those
that are control codes are dropped, and each of the others is shown as the replacement character.

Outside a sequence the control characters below blank and from U+0080 to U+009F are dropped,
except the line break.
-/

namespace TupleLang.Text

/-- What a terminal has read so far of a control sequence. -/
inductive Terminal where
  /-- Not inside a sequence. -/
  | ground
  /-- After an escape character. -/
  | escape
  /-- After an escape character and an intermediate one. -/
  | escapeIntermediate
  /-- Inside a command with parameters. -/
  | command
  /-- Inside a title. -/
  | title
  /-- At the start of a device string. -/
  | device
  /-- Inside the parameters of a device string. -/
  | deviceParameters
  /-- After an intermediate character of a device string. -/
  | deviceIntermediate
  /-- Inside the data of a device string. -/
  | deviceData
  /-- Inside a string that only an escape or a cancelling character ends. -/
  | string
  deriving DecidableEq

/-- CAN and SUB, the characters that end every sequence. -/
def isCancel (c : Char) : Bool :=
  c == '\x18' || c == '\x1a'

/-- Whether a character lies between two characters, both included. -/
def isBetween (low high c : Char) : Bool :=
  decide (low ≤ c) && decide (c ≤ high)

/-- Control characters that a terminal executes instead of printing. -/
def isControl (c : Char) : Bool :=
  decide (c < ' ') || isBetween '\x80' '\x9f' c

namespace Terminal

/-- The bytes of a character from the first one on that ends the data of a device string; none
if the character does not end them. -/
def fromTerminator (c : Char) : List UInt8 :=
  (String.utf8EncodeChar c).dropWhile (· != 0x9c)

/-- The bytes of a character that are left over when one of its bytes ends the data of a device
string. -/
def strayBytes (c : Char) : List UInt8 :=
  (fromTerminator c).drop 1

/-- The state after the character that follows an escape character. -/
def afterEscape (c : Char) : Terminal :=
  if isBetween ' ' '/' c then escapeIntermediate
  else if c == '[' then command
  else if c == ']' then title
  else if c == 'P' then device
  else if c == 'X' || c == '^' || c == '_' then string
  else if isBetween '0' '~' c then ground
  else escape

/-- The state after a character in the head of a device string, given the state that a parameter
leads to: the one from `0` to `;` in `digit`, the one from `<` to `?` in `marker`.  A character
that belongs to no head leaves the state as it is. -/
def afterDevice (state digit marker : Terminal) (c : Char) : Terminal :=
  if isBetween ' ' '/' c then deviceIntermediate
  else if isBetween '0' ';' c then digit
  else if isBetween '<' '?' c then marker
  else if isBetween '@' '~' c then deviceData
  else state

/-- The state after one more character. -/
def next (state : Terminal) (c : Char) : Terminal :=
  if c == '\x1b' then escape
  else if isCancel c then ground
  else match state with
    | ground => ground
    | escape => afterEscape c
    | escapeIntermediate => if isBetween '0' '~' c then ground else escapeIntermediate
    | command => if isBetween '@' '~' c then ground else command
    | title => if c == '\x07' then ground else title
    | device => afterDevice device deviceParameters deviceParameters c
    | deviceParameters => afterDevice deviceParameters deviceParameters string c
    | deviceIntermediate => afterDevice deviceIntermediate string string c
    | deviceData => if (fromTerminator c).isEmpty then deviceData else ground
    | string => string

/-- What a character that is read in this state leaves on the screen.  A line break is seen in the
middle of a short sequence or a command too. -/
def shown (state : Terminal) (c : Char) : List Char :=
  match state with
  | ground => if c == '\n' || !isControl c then [c] else []
  | escape | escapeIntermediate | command => if c == '\n' then [c] else []
  | deviceData => ((strayBytes c).filter (0xa0 ≤ ·)).map fun _ => '\ufffd'
  | title | device | deviceParameters | deviceIntermediate | string => []

end Terminal

/-- What remains visible of a text that is read in the given state. -/
def visibleFrom (state : Terminal) : List Char → List Char
  | [] => []
  | c :: rest => state.shown c ++ visibleFrom (state.next c) rest

/-- The printable part of a text and its line breaks, without control sequences. -/
def visible (text : String) : String :=
  String.ofList (visibleFrom .ground text.toList)

end TupleLang.Text
