/-!
# Styled text

Programs are printed as a sequence of spans, some of which carry a paint.  The same sequence is
read in two ways: `Styled.plain` forgets the paints, and `Styled.ansi` writes each painted span
between the terminal code of its paint and the reset code.

A painted span whose own text resets the terminal would lose its paint in the middle, so the paint
is switched on again after every reset inside it.
-/

namespace TupleLang

/-- The colors and styles in which parts of a program are shown. -/
inductive Paint where
  | blue
  | magenta
  | cyan
  | white
  | yellow
  | brightRed
  | dim
  deriving DecidableEq

/-- The terminal's number for a paint. -/
def Paint.code : Paint → String
  | .blue => "34"
  | .magenta => "35"
  | .cyan => "36"
  | .white => "37"
  | .yellow => "33"
  | .brightRed => "91"
  | .dim => "2"

/-- The terminal sequence that switches a paint on. -/
def Paint.switchOn (paint : Paint) : String :=
  "\x1b[" ++ paint.code ++ "m"

/-- The terminal sequence that switches every paint off. -/
def Paint.reset : String := "\x1b[0m"

/-- A piece of text with at most one paint. -/
structure Span where
  /-- The paint of the whole piece, if it has one. -/
  paint : Option Paint
  /-- The text itself. -/
  text : String

/-- A text made of spans. -/
abbrev Styled := List Span

namespace Styled

/-- Unpainted text. -/
def raw (text : String) : Styled :=
  [⟨none, text⟩]

/-- A text in one paint. -/
def painted (paint : Paint) (text : String) : Styled :=
  [⟨some paint, text⟩]

/-- The parts one after the other, with `separator` between neighbours. -/
def join (separator : String) : List Styled → Styled
  | [] => []
  | [part] => part
  | part :: parts => part ++ raw separator ++ join separator parts

/-- The text without its paints. -/
def plain (styled : Styled) : String :=
  String.join (styled.map Span.text)

/-- A span as a terminal shows it in color. -/
def spanAnsi : Span → String
  | ⟨none, text⟩ => text
  | ⟨some paint, text⟩ =>
    paint.switchOn ++ text.replace Paint.reset (Paint.reset ++ paint.switchOn) ++ Paint.reset

/-- The text with the terminal sequences of its paints. -/
def ansi (styled : Styled) : String :=
  String.join (styled.map spanAnsi)

end Styled

end TupleLang
