import Uplink.Toml.Scanner

/-!
# Blanks and comments

Blanks separate the parts of a line; a line ends with a line feed, perhaps after a carriage return,
or with the text. Comments run to the end of their line and hold no control characters but tabs.
-/

namespace Uplink

namespace Toml

namespace Scanner

/-- Blanks within a line. -/
def isBlank (c : Char) : Bool := c == ' ' || c == '\t'

/-- A character that a comment may hold: no control character but the tab. -/
def isPrintable (c : Char) : Bool := c == '\t' || (' ' ≤ c && c != '\x7f')

/-- Any blanks within a line. -/
def blanks : Scanner Unit := do
  let _ ← takeWhile isBlank

/-- The end of a line. -/
def newline : Scanner Unit := char '\n' <|> keyword "\r\n"

/-- The end of a line or of the text. -/
def lineEnd : Scanner Unit := newline <|> atEnd

/-- A comment, up to the end of its line. -/
def comment : Scanner Unit := do
  char '#'
  let _ ← takeWhile isPrintable

/-- What may follow a statement on its line. -/
def restOfLine : Scanner Unit := do
  blanks
  let _ ← maybe comment
  lineEnd

/-- Blanks, ends of lines, and comments with the ends of their lines. -/
def spacing : Scanner Unit := do
  let _ ← many (char ' ' <|> char '\t' <|> newline <|> (comment *> newline))

end Scanner

end Toml

end Uplink
