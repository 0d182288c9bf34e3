/-!
# Scanners

A scanner reads the front of a text and leaves the rest, or does not apply. Alternatives begin at
the same place.

- `Scanner.next`, `char`, `keyword`, `takeWhile`: the elementary scanners.
- `Scanner.many`, `separated`: repetition, as long as the repeated scanner applies.
- `Scanner.accepts?`: the result for a whole text.
-/

namespace Uplink

namespace Toml

/-- Read the front of a text and leave the rest. -/
abbrev Scanner := StateT (List Char) Option

namespace Scanner

variable {α β : Type}

/-- The next character, if it has a property. -/
def next (p : Char → Bool) : Scanner Char := fun
  | c :: rest => if p c then some (c, rest) else none
  | [] => none

/-- The given character. -/
def char (c : Char) : Scanner Unit := do
  let _ ← next (· == c)

/-- The given text. -/
def keyword (text : String) : Scanner Unit := text.toList.forM char

/-- The next character, which stays in the text; none at the end. -/
def peek : Scanner (Option Char) := fun text => some (text.head?, text)

/-- The characters up to the first one without a property. -/
def takeWhile (p : Char → Bool) : Scanner (List Char) := fun text => some (text.span p)

/-- The end of the text. -/
def atEnd : Scanner Unit := fun
  | [] => some ((), [])
  | _ => none

/-- The result of a scanner, if it applies. -/
def maybe (scanner : Scanner α) : Scanner (Option α) := some <$> scanner <|> pure none

/-- The results of a scanner, repeated at most `n` times. -/
def atMost (scanner : Scanner α) : (n : Nat) → Scanner (List α)
  | 0 => pure []
  | n + 1 => do
    match ← maybe scanner with
    | some x => return x :: (← atMost scanner n)
    | none => return []

/-- The results of a scanner that reads at least one character, repeated while it applies. -/
def many (scanner : Scanner α) : Scanner (List α) := do
  atMost scanner (← get).length

/-- The results of exactly `n` repetitions. -/
def exactly (scanner : Scanner α) (n : Nat) : Scanner (List α) :=
  (List.replicate n scanner).mapM id

/-- One result or more, with separators between them. -/
def separated (scanner : Scanner α) (separator : Scanner Unit) : Scanner (List α) := do
  let first ← scanner
  return first :: (← many (separator *> scanner))

/-- The result for a whole text. -/
def accepts? (scanner : Scanner α) (text : List Char) : Option α :=
  ((scanner <* atEnd).run text).map (·.1)

end Scanner

end Toml

end Uplink
