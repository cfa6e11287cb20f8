import SchemaModels.Config.Basic
import SchemaModels.Toml.Reader

/-!
# Reading configurations

A configuration text has a table each for the output, the emission, the top-level type and the
repair. What it does not state has its default, and keys that no setting has are ignored. A record
is written as a table of its parts by name, or as a list of them in their order.

* `Configuration.ofText?`: the configuration of a text, if it is one.
-/

namespace SchemaModels.Configuration

open Toml

/-! ### Values -/

def readText : Toml → Option String
  | .text s => some s
  | _ => none

def readBoolean : Toml → Option Bool
  | .boolean b => some b
  | _ => none

def readList {α : Type} (item : Toml → Option α) : Toml → Option (List α)
  | .list items => items.mapM item
  | _ => none

/-- Whether a value has no parts. -/
def isEmptyContainer : Toml → Bool
  | .list items => items.isEmpty
  | .table entries => entries.isEmpty
  | _ => false

/-- A choice: its word, or a table with an empty container under the word alone. -/
def readChoice {α : Type} (choices : List (String × α)) : Toml → Option α
  | .text s => choices.lookup s
  | .table [(word, v)] => if isEmptyContainer v then choices.lookup word else none
  | _ => none

/-! ### Records -/

/-- A value that the parts of a record can be read from. -/
def isRecord : Toml → Bool
  | .list _ => true
  | .table _ => true
  | _ => false

/-- A part of a record, by its place or its name. -/
def part? (place : Nat) (name : String) : Toml → Option Toml
  | .list items => items[place]?
  | .table entries => entries.lookup name
  | _ => none

/-- A part of a record, with what stands for it where it is not stated. -/
def part {α : Type} (v : Toml) (place : Nat) (name : String) (read : Toml → Option α)
    (otherwise : Option α) : Option α :=
  match part? place name v with
  | some v => read v
  | none => otherwise

/-- A record that a function reads. -/
def readRecord {α : Type} (read : Toml → Option α) (v : Toml) : Option α :=
  if isRecord v then read v else none

/-! ### Tables -/

def targets : List (String × Target) := [("pydantic", .pydantic), ("zod", .zod)]

def indents : List (String × Indent) := [("2", .two), ("4", .four), ("tab", .tab)]

def lineEndings : List (String × LineEnding) := [("lf", .lf), ("crlf", .crlf)]

/-- The table of the output. -/
def readOutput (c : Configuration) (v : Toml) : Option Configuration := do
  let target ← part v 0 "target" (readChoice targets) (some c.target)
  let version ← part v 1 "version" (fun v => (readText v).map some) (some c.version)
  let docs ← part v 2 "generate_docs" readBoolean (some c.docs)
  let indent ← part v 3 "indent" (fun v => (readChoice indents v).map some) (some c.indent)
  let lineEnding ← part v 4 "line_ending" (readChoice lineEndings) (some c.lineEnding)
  some { c with target, version, docs, indent, lineEnding }

/-- The table of the emission. -/
def readEmit (c : Configuration) (v : Toml) : Option Configuration := do
  let sections ← part v 0 "sections" (readList readText) (some c.sections)
  let forbidExtra ← part v 1 "forbid_extra" readBoolean (some c.forbidExtra)
  let bindingRecords ← part v 2 "binding_records" readBoolean (some c.bindingRecords)
  some { c with sections, forbidExtra, bindingRecords }

/-- The table of the top-level type. -/
def readSchema (c : Configuration) (v : Toml) : Option Configuration := do
  let name ← part v 0 "name" readText (some c.root.name)
  let metadataType ← part v 1 "metadata_type" readText (some c.root.metadataType)
  let rootType ← part v 2 "root_type" readText (some c.root.rootType)
  some { c with root := { c.root with name, metadataType, rootType } }

/-- A group of the repair. -/
def readGroup (v : Toml) : Option Repair.Group := do
  let name ← part v 0 "name" readText none
  let members ← part v 1 "members" (readList readText) none
  let discriminator ← part v 2 "discriminator" readText (some "type")
  some { name, members, discriminator }

/-- The table of the repair. -/
def readRepair (c : Configuration) (v : Toml) : Option Configuration := do
  let warnOnMissing ← part v 0 "warn_on_missing" readBoolean (some c.warnOnMissing)
  let groups ← part v 1 "groups" (readList (readRecord readGroup)) (some c.groups)
  some { c with warnOnMissing, groups }

/-- The tables of a configuration. -/
def tables : List (String × (Configuration → Toml → Option Configuration)) :=
  [("output", readOutput), ("emit", readEmit), ("schema", readSchema), ("rewrite", readRepair)]

/-- The configuration that a table writes. -/
def ofToml? (v : Toml) : Option Configuration :=
  tables.zipIdx.foldlM
    (fun c table => part v table.2 table.1.1 (readRecord (table.1.2 c)) (some c)) {}

/-- The configuration of a text. -/
def ofText? (s : String) : Option Configuration := (Toml.ofText? s).bind ofToml?

end SchemaModels.Configuration
