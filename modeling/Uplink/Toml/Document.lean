import Uplink.Toml.Value

/-!
# Documents

A text is a list of statements: settings, with names that may lead through several tables, and
headers that say to which table the settings after them belong. Each setting and each table is
defined once.

- `Statement`: a setting, the header of a table, or that of a further table of an array.
- `Node`: the tables while they are put together, with how each of them came to be.
- `Document.ofStatements`: the table that the statements define, unless one of them defines
  something a second time.
-/

namespace Uplink

namespace Toml

/-- How a table came to be. -/
inductive Origin where
  /-- By a header of its own. -/
  | header
  /-- By the header of a table inside it. -/
  | implied
  /-- By the name of a setting that leads through it. -/
  | dotted
deriving DecidableEq, Repr

/-- A value, or a table being put together. -/
inductive Node where
  | leaf (value : Value)
  | table (origin : Origin) (entries : List (String × Node))
  /-- The tables of an array with headers, the last one open. -/
  | tables (elements : List (List (String × Node)))

/-- Entries of a table being put together. -/
abbrev Entries := List (String × Node)

/-! ## The finished value -/

mutual

/-- The value of a node. -/
def Node.toValue : Node → Value
  | .leaf value => value
  | .table _ entries => .table (entryValues entries)
  | .tables elements => .array (elementValues elements)

/-- The values of entries. -/
def entryValues : List (String × Node) → List (String × Value)
  | [] => []
  | (name, node) :: rest => (name, node.toValue) :: entryValues rest

/-- The values of tables. -/
def elementValues : List (List (String × Node)) → List Value
  | [] => []
  | entries :: rest => .table (entryValues entries) :: elementValues rest

end

/-! ## Statements -/

/-- A statement of a text. -/
inductive Statement where
  | setting (path : List String) (name : String) (value : Value)
  | header (path : List String) (name : String)
  | element (path : List String) (name : String)

namespace Entries

/-- The entries with a node in the place of the one of that name, or at the end. -/
def put (entries : Entries) (name : String) (node : Node) : Entries :=
  if (entries.lookup name).isSome then
    entries.map fun entry => if entry.1 == name then (name, node) else entry
  else entries ++ [(name, node)]

/-- Change the table at a path, through tables that are made on the way. Names of settings do not
lead through a table with a header. -/
def change (made : Origin) (finish : Origin → Entries → Option Entries) :
    (path : List String) → (origin : Origin) → Entries → Option Entries
  | [], origin, entries => finish origin entries
  | name :: path, _, entries =>
    match entries.lookup name with
    | none => do return put entries name (.table made (← change made finish path made []))
    | some (.leaf _) => none
    | some (.table origin inner) => do
      if made = .dotted ∧ origin = .header then none
      return put entries name (.table origin (← change made finish path origin inner))
    | some (.tables elements) => do
      let last ← change made finish path .header (elements.getLastD [])
      return put entries name (.tables (elements.dropLast ++ [last]))

/-- Add a setting to a table, at the end of a path of names. A path ends in a table that such paths
alone have made. -/
def addSetting (path : List String) (name : String) (value : Value) (entries : Entries) :
    Option Entries :=
  change .dotted
    (fun origin entries =>
      if path ≠ [] ∧ origin ≠ .dotted then none
      else if (entries.lookup name).isSome then none
      else some (entries ++ [(name, .leaf value)]))
    path .header entries

/-- Define a table by a header. -/
def addTable (name : String) (entries : Entries) : Option Entries :=
  match entries.lookup name with
  | none => some (entries ++ [(name, .table .header [])])
  | some (.table .implied inner) => some (put entries name (.table .header inner))
  | some _ => none

/-- Add a table to an array of tables. -/
def addElement (name : String) (entries : Entries) : Option Entries :=
  match entries.lookup name with
  | none => some (entries ++ [(name, .tables [[]])])
  | some (.tables elements) => some (put entries name (.tables (elements ++ [[]])))
  | some _ => none

/-- The value of a table that is defined by settings alone. -/
def ofSettings (settings : List (List String × String × Value)) : Option Value := do
  let entries ← settings.foldlM
    (fun entries (path, name, value) => addSetting path name value entries) []
  return .table (entryValues entries)

end Entries

/-- A document being read. -/
structure Document where
  entries : Entries
  /-- The path of the table that settings belong to. -/
  current : List String

namespace Document

/-- Take in a statement. -/
def add (d : Document) : Statement → Option Document
  | .setting path name value => do
    let entries ← Entries.change .implied
      (fun _ entries => Entries.addSetting path name value entries) d.current .header d.entries
    return { d with entries }
  | .header path name => do
    let entries ← Entries.change .implied
      (fun _ entries => Entries.addTable name entries) path .header d.entries
    return ⟨entries, path ++ [name]⟩
  | .element path name => do
    let entries ← Entries.change .implied
      (fun _ entries => Entries.addElement name entries) path .header d.entries
    return ⟨entries, path ++ [name]⟩

/-- The table that statements define. -/
def ofStatements (statements : List Statement) : Option Value := do
  let d ← statements.foldlM add ⟨[], []⟩
  return .table (entryValues d.entries)

end Document

end Toml

end Uplink
