import Uplink.Toml.Document
import Uplink.Toml.Number

/-!
# Reading configuration texts

- `Scanner.value`: a value, nested to a bounded depth.
- `Scanner.statements`: the statements of a text, each on a line of its own.
- `Toml.parse?`: the table of a text.
-/

namespace Uplink

namespace Toml

namespace Scanner

/-- Arrays and tables within each other, and names of a path, are fewer than this. -/
def nestingLimit : Nat := 80

/-! ## Names -/

/-- A character of a name without quotes. -/
def isNameChar (c : Char) : Bool :=
  isDigit c || ('a' ≤ c && c ≤ 'z') || ('A' ≤ c && c ≤ 'Z') || c == '_' || c == '-'

/-- One name, with blanks around it. -/
def simpleName : Scanner String := do
  blanks
  let name ← simpleQuoted <|> do
    let first ← next isNameChar
    return first :: (← takeWhile isNameChar)
  blanks
  return String.ofList name

/-- A path of names with points between them, and the last name. -/
def path : Scanner (List String × String) := do
  let names ← separated simpleName (char '.')
  if nestingLimit ≤ names.length then failure
  return (names.dropLast, names.getLastD "")

/-! ## Values -/

/-- A truth value. -/
def truth : Scanner Value :=
  (do keyword "true"; return .boolean true) <|> (do keyword "false"; return .boolean false)

/-- A value that holds no other values. -/
def scalar : Scanner Value :=
  (do return .string (← quoted)) <|> moment <|> float <|> integer <|> truth

/-- An array of the given elements, perhaps with a comma after the last one. -/
def array (element : Scanner Value) : Scanner Value := do
  char '['
  let values ← maybe (separated (spacing *> element <* spacing) (char ','))
  if values.isSome then
    let _ ← maybe (char ',')
  spacing
  char ']'
  return .array (values.getD [])

/-- A name and the value it is given. -/
def setting (element : Scanner Value) : Scanner (List String × String × Value) := do
  let (path, name) ← path
  char '='
  blanks
  return (path, name, ← element)

/-- A table on one line. -/
def inlineTable (element : Scanner Value) : Scanner Value := do
  char '{'
  let settings ← maybe (separated (setting element <* blanks) (char ','))
  blanks
  char '}'
  match Entries.ofSettings (settings.getD []) with
  | some table => return table
  | none => failure

/-- A value with at most `depth` arrays and tables within each other. -/
def value : (depth : Nat) → Scanner Value
  | 0 => scalar
  | depth + 1 => scalar <|> array (value depth) <|> inlineTable (value depth)

/-! ## Statements -/

/-- A header: a path between brackets. -/
def header : Scanner Statement := do
  char '['
  let (path, name) ← path
  char ']'
  restOfLine
  return .header path name

/-- The header of an array's element: a path between two brackets. -/
def elementHeader : Scanner Statement := do
  keyword "[["
  let (path, name) ← path
  keyword "]]"
  restOfLine
  return .element path name

/-- A setting on a line of its own. -/
def settingLine : Scanner Statement := do
  let (path, name, value) ← setting (value (nestingLimit - 1))
  restOfLine
  return .setting path name value

/-- A statement, or a line without one. -/
def line : Scanner (Option Statement) :=
  (do comment; lineEnd; return none) <|> (do newline; return none)
    <|> some <$> (elementHeader <|> header <|> settingLine)

/-- The statements of a text, which may begin with a byte order mark. -/
def statements : Scanner (List Statement) := do
  let _ ← maybe (char '\uFEFF')
  blanks
  let lines ← many (line <* blanks)
  return lines.filterMap id

end Scanner

/-- The table of a text, if it can be read and defines nothing twice. -/
def parse? (text : String) : Option Value := do
  Document.ofStatements (← Scanner.statements.accepts? text.toList)

end Toml

end Uplink
