/-!
# Values of a configuration text

A text of named settings stands for a table of values.

- `Toml.Value`: scalars, arrays and tables.
- `Toml.Fields`: a record given by names or, by an array, in order.
- `Toml.Value.natBelow?`, `single?`, `boolean?`, `list?`, `choice?`: a value read as a domain type.
-/

namespace Uplink

namespace Toml

/-- A value. -/
inductive Value where
  | string (text : String)
  | integer (value : Int)
  | float (value : Float)
  | boolean (value : Bool)
  /-- A date, a time of day or both, as written. -/
  | moment (text : String)
  | array (values : List Value)
  /-- Entries in the order of their first mention, each name once. -/
  | table (entries : List (String × Value))

/-- The settings of a record. -/
inductive Fields where
  | named (entries : List (String × Value))
  | ordered (values : List Value)

namespace Fields

/-- The setting with a name and a place in the order. -/
def find? (fields : Fields) (place : Nat) (name : String) : Option Value :=
  match fields with
  | named entries => entries.lookup name
  | ordered values => values[place]?

/-- A setting read by `decode`; the default if it is missing, and nothing if it cannot be read. -/
def readD {α : Type} (fields : Fields) (place : Nat) (name : String) (decode : Value → Option α)
    (default : α) : Option α :=
  match fields.find? place name with
  | some value => decode value
  | none => some default

/-- A setting that may not be missing, read by `decode`. -/
def read {α : Type} (fields : Fields) (place : Nat) (name : String) (decode : Value → Option α) :
    Option α := do
  decode (← fields.find? place name)

end Fields

namespace Value

/-- The settings that a value holds. A moment has settings, but none of a known name. -/
def fields? : Value → Option Fields
  | table entries => some (.named entries)
  | array values => some (.ordered values)
  | moment _ => some (.named [])
  | _ => none

/-- A whole number from zero up to, not including, `limit`. -/
def natBelow? (limit : Nat) : Value → Option Nat
  | integer i => if 0 ≤ i ∧ i < limit then some i.toNat else none
  | _ => none

/-- A single precision number; a whole number stands for the nearest one. -/
def single? : Value → Option Float32
  | float x => some x.toFloat32
  | integer i => some (Int64.ofInt i).toFloat32
  | _ => none

/-- A truth value. -/
def boolean? : Value → Option Bool
  | boolean b => some b
  | _ => none

/-- An array of values that are read by `decode`. -/
def list? {α : Type} (decode : Value → Option α) : Value → Option (List α)
  | array values => values.mapM decode
  | _ => none

/-- Nothing is in the array or table. -/
def isEmpty : Value → Bool
  | array values => values.isEmpty
  | table entries => entries.isEmpty
  | _ => false

/-- One of the named choices: its name, or a table whose one entry has the name and no content. -/
def choice? {α : Type} (choices : List (String × α)) : Value → Option α
  | string name => choices.lookup name
  | table [(name, content)] => if content.isEmpty then choices.lookup name else none
  | _ => none

end Value

end Toml

end Uplink
