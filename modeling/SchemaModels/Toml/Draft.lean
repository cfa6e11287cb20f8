import SchemaModels.Keyed
import SchemaModels.Toml.Basic

/-!
# Tables from their statements

While a text is read, its tables are still open: a later statement may add to them. What it may do
depends on how a table came to be. A table with a header of its own is defined once; a table that
dotted keys made grows by dotted keys only; values, and the tables written inside braces, never
grow.

* `ofStatements`: the table that statements define, unless one defines anything twice.
* `ofEntries`: the table that entries inside braces define.
-/

namespace SchemaModels.Toml

/-- How a table came to be: by its own header, by the header of a table inside it, or by a dotted
key. -/
inductive Origin where
  | stated
  | implied
  | dotted
  deriving DecidableEq

/-- A value that may still grow. -/
inductive Draft where
  | value (v : Toml)
  | table (origin : Origin) (entries : List (String × Draft))
  /-- A list of tables, of which only the last may grow. -/
  | tables (closed : List Toml) (last : List (String × Draft))

/-- The entries of an open table. -/
abbrev Drafts := List (String × Draft)

/-! ### Closing -/

mutual

/-- The value that a draft has become. -/
def Draft.close : Draft → Toml
  | .value v => v
  | .table _ entries => .table (closeAll entries)
  | .tables closed last => .list (closed ++ [.table (closeAll last)])

/-- The entries that open entries have become. -/
def closeAll : List (String × Draft) → List (String × Toml)
  | [] => []
  | (key, d) :: rest => (key, d.close) :: closeAll rest

end

/-! ### Growing -/

/-- Put an entry in its place or at the end. -/
def put (key : String) (d : Draft) (entries : Drafts) : Drafts :=
  Keyed.upsert Prod.fst (key, d) entries

/-- Change the table at the end of a path. Tables missing on the way are made, of a given origin; a
dotted key does not pass through a table that has its own header. -/
def descend (made : Origin) (change : Origin → Drafts → Option Drafts) :
    List String → Origin → Drafts → Option Drafts
  | [], origin, entries => change origin entries
  | key :: path, _, entries =>
      match entries.lookup key with
      | none => (descend made change path made []).map fun sub => put key (.table made sub) entries
      | some (.table origin sub) =>
          if made = .dotted ∧ origin = .stated then none
          else (descend made change path origin sub).map fun sub =>
            put key (.table origin sub) entries
      | some (.tables closed last) =>
          (descend made change path .stated last).map fun last =>
            put key (.tables closed last) entries
      | some (.value _) => none

/-- Add an entry that is not there yet. -/
def add (key : String) (d : Draft) (entries : Drafts) : Option Drafts :=
  if (entries.lookup key).isSome then none else some (put key d entries)

/-- Add the value of a dotted key to a table. -/
def assign (path : Path) (v : Toml) (entries : Drafts) : Option Drafts :=
  descend .dotted
    (fun origin entries =>
      if origin = .dotted ∨ path.parents.isEmpty then add path.name (.value v) entries else none)
    path.parents .stated entries

/-- Open a table with a header. -/
def openTable (path : Path) (entries : Drafts) : Option Drafts :=
  descend .implied
    (fun _ entries =>
      match entries.lookup path.name with
      | none => some (put path.name (.table .stated []) entries)
      | some (.table .implied sub) => some (put path.name (.table .stated sub) entries)
      | some _ => none)
    path.parents .stated entries

/-- Open one more table of a list. -/
def openElement (path : Path) (entries : Drafts) : Option Drafts :=
  descend .implied
    (fun _ entries =>
      match entries.lookup path.name with
      | none => some (put path.name (.tables [] []) entries)
      | some (.tables closed last) =>
          some (put path.name (.tables (closed ++ [.table (closeAll last)]) []) entries)
      | some _ => none)
    path.parents .stated entries

/-! ### Statements -/

/-- Apply statements to a text's table, whose current table is at the end of a path. -/
def applyAll : List Statement → List String → Drafts → Option Drafts
  | [], _, entries => some entries
  | .header path :: rest, _, entries => (openTable path entries).bind (applyAll rest path.parts)
  | .element path :: rest, _, entries => (openElement path entries).bind (applyAll rest path.parts)
  | .entry path v :: rest, current, entries =>
      (descend .implied (fun _ table => assign path v table) current .stated entries).bind
        (applyAll rest current)

/-- The table that statements define. -/
def ofStatements (statements : List Statement) : Option Toml :=
  (applyAll statements [] []).map fun entries => .table (closeAll entries)

/-- The table that entries inside braces define. -/
def ofEntries (entries : List (Path × Toml)) : Option Toml :=
  (entries.foldlM (fun table e => assign e.1 e.2 table) []).map fun entries =>
    .table (closeAll entries)

end SchemaModels.Toml
