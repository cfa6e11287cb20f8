/-!
# Configuration values

The values that a TOML text writes. A table has its entries in the order in which their keys first
stand, each key once. Numbers with a fraction and moments of time are kept as they are written.
-/

namespace SchemaModels

/-- A value of a configuration text. -/
inductive Toml where
  | text (s : String)
  | integer (n : Int)
  | real (written : String)
  | boolean (b : Bool)
  | moment (written : String)
  | list (items : List Toml)
  | table (entries : List (String × Toml))

namespace Toml

/-- A dotted key: the tables it passes through, and the name in the last of them. -/
structure Path where
  parents : List String
  name : String

/-- The path that the parts of a key form. -/
def Path.ofParts : List String → Option Path
  | [] => none
  | [name] => some ⟨[], name⟩
  | part :: rest => (ofParts rest).map fun p => { p with parents := part :: p.parents }

/-- The path as one list of names. -/
def Path.parts (p : Path) : List String := p.parents ++ [p.name]

/-- A line of a configuration text: the header of a table, the header of one more table of a list,
or an entry of the table whose header came last. -/
inductive Statement where
  | header (path : Path)
  | element (path : Path)
  | entry (path : Path) (value : Toml)

end Toml

end SchemaModels
