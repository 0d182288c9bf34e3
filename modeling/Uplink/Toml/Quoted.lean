import Uplink.Toml.Blank

/-!
# Quoted text

Text in double quotes may hold escapes, text in single quotes stands for itself. In three quotes of
either kind it may run over several lines, of which the first line end is dropped, and may end with
up to two quotes of its own.

- `Scanner.quoted`: any quoted text.
- `Scanner.simpleQuoted`: quoted text on one line, as in names.
-/

namespace Uplink

namespace Toml

namespace Scanner

/-- The value of a hexadecimal digit. -/
def hexDigit? (c : Char) : Option Nat :=
  if '0' ≤ c ∧ c ≤ '9' then some (c.toNat - '0'.toNat)
  else if 'a' ≤ c ∧ c ≤ 'f' then some (c.toNat - 'a'.toNat + 10)
  else if 'A' ≤ c ∧ c ≤ 'F' then some (c.toNat - 'A'.toNat + 10)
  else none

/-- The character whose number is given by `n` hexadecimal digits. -/
def numbered (n : Nat) : Scanner Char := do
  let digits ← exactly (next fun c => (hexDigit? c).isSome) n
  let value := digits.foldl (fun value c => 16 * value + (hexDigit? c).getD 0) 0
  if value.isValidChar then return Char.ofNat value else failure

/-- The character that an escape stands for. -/
def escaped : Scanner Char := do
  char '\\'
  match ← next fun _ => true with
  | 'b' => return '\x08'
  | 't' => return '\t'
  | 'n' => return '\n'
  | 'f' => return '\x0c'
  | 'r' => return '\r'
  | '"' => return '"'
  | '\\' => return '\\'
  | 'u' => numbered 4
  | 'U' => numbered 8
  | _ => failure

/-- A character that stands for itself between double quotes. -/
def isPlain (c : Char) : Bool := isPrintable c && c != '"' && c != '\\'

/-- A character that stands for itself between single quotes. -/
def isLiteral (c : Char) : Bool := isPrintable c && c != '\''

/-- Text between double quotes. -/
def doubleQuoted : Scanner (List Char) := do
  char '"'
  let text ← many (next isPlain <|> escaped)
  char '"'
  return text

/-- Text between single quotes. -/
def singleQuoted : Scanner (List Char) := do
  char '\''
  let text ← takeWhile isLiteral
  char '\''
  return text

/-- Quoted text on one line. -/
def simpleQuoted : Scanner (List Char) := doubleQuoted <|> singleQuoted

/-- A line end in a text, which is a line feed. -/
def innerNewline : Scanner (List Char) := do
  newline
  return ['\n']

/-- A line end after a backslash, with all blanks and line ends behind it; it stands for nothing. -/
def joinedLines : Scanner (List Char) := do
  char '\\'
  blanks
  newline
  let _ ← many (char ' ' <|> char '\t' <|> newline)
  return []

/-- A quote that does not end the text, because fewer than three stand together. -/
def innerQuote (quote : Char) : Scanner (List Char) := fun text =>
  match text with
  | a :: rest => if a = quote ∧ ¬ [quote, quote].isPrefixOf rest then some ([quote], rest) else none
  | [] => none

/-- The three quotes that end a text, after up to two quotes that belong to it. -/
def closing (quote : Char) : Scanner (List Char) := do
  let _ ← exactly (char quote) 3
  let own ← atMost (char quote) 2
  return own.map fun _ => quote

/-- Text between three quotes, made of the given pieces. -/
def tripleQuoted (quote : Char) (piece : Scanner (List Char)) : Scanner (List Char) := do
  let _ ← exactly (char quote) 3
  let _ ← maybe newline
  let pieces ← many (piece <|> innerQuote quote)
  return pieces.flatten ++ (← closing quote)

/-- A piece of a text between three double quotes. -/
def doublePiece : Scanner (List Char) :=
  (do return [← next isPlain]) <|> joinedLines <|> (do return [← escaped]) <|> innerNewline

/-- A piece of a text between three single quotes. -/
def singlePiece : Scanner (List Char) := (do return [← next isLiteral]) <|> innerNewline

/-- Quoted text of any kind. -/
def quoted : Scanner String := do
  let text ← tripleQuoted '"' doublePiece <|> doubleQuoted
    <|> tripleQuoted '\'' singlePiece <|> singleQuoted
  return String.ofList text

end Scanner

end Toml

end Uplink
