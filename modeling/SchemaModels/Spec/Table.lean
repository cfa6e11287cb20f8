import SchemaModels.Keyed
import SchemaModels.Spec.Basic

/-!
# Definitions and their table

A table holds the definitions of a schema document in declaration order, one a name, and the
description of its top-level type.

* `Definition.references`: the definitions a definition refers to, each once, in order.
* `Table.insert`: a definition takes the place of the one with its name.
-/

namespace SchemaModels

/-- A record: its fields in declaration order, the names of those required, and whether other
fields are refused. -/
structure Record where
  fields : List (String × Spec)
  required : List String
  strict : Bool
  names_nodup : (fields.map Prod.fst).Nodup

namespace Record

def isRequired (r : Record) (field : String) : Bool := r.required.contains field

/-- The specification of a field. -/
def field? (r : Record) (name : String) : Option Spec := r.fields.lookup name

/-- The declared fields that are required. -/
def requiredFields (r : Record) : List (String × Spec) :=
  r.fields.filter fun f => r.isRequired f.1

/-- The record without fields. -/
def empty : Record := ⟨[], [], false, List.nodup_nil⟩

/-- Set the specification of a field. -/
def insert (r : Record) (name : String) (spec : Spec) : Record :=
  { r with
    fields := Keyed.upsert Prod.fst (name, spec) r.fields
    names_nodup := Keyed.nodup_upsert Prod.fst _ _ r.names_nodup }

/-- Change the specifications of the fields. -/
def mapFields (r : Record) (f : String → Spec → Spec) : Record :=
  { r with
    fields := r.fields.map fun p => (p.1, f p.1 p.2)
    names_nodup := by
      rw [List.map_map]
      exact r.names_nodup }

end Record

/-- What a definition declares. -/
inductive Kind where
  | enum (values : List String)
  | object (record : Record)
  | union (members : List String) (discriminator : Option String)
  | typeAlias (spec : Spec)

/-- A named definition. -/
structure Definition where
  name : String
  description : Option String
  kind : Kind

namespace Definition
variable (d : Definition)

/-- The definitions that a definition refers to, with repetitions. -/
def mentions : List String :=
  match d.kind with
  | .enum _ => []
  | .object record => record.fields.flatMap fun f => f.2.mentions
  | .union members _ => members
  | .typeAlias spec => spec.mentions

/-- The definitions that a definition refers to, each once, in order. -/
def references : List String := d.mentions.eraseDups

def isObject : Bool := match d.kind with
  | .object _ => true
  | _ => false

def isUnion : Bool := match d.kind with
  | .union _ _ => true
  | _ => false

def record? : Option Record := match d.kind with
  | .object record => some record
  | _ => none

/-- The values of an enum. -/
def values? : Option (List String) := match d.kind with
  | .enum values => some values
  | _ => none

end Definition

/-- The description of the top-level type, which has the two fields `metadata` and `root`. -/
structure Root where
  name : String := "UISchema"
  description : Option String := none
  version : Option String := none
  metadataType : String := "UIMetadata"
  rootType : String := "UIComponent"
  deriving DecidableEq

/-- The definitions of a document, one a name, with its top-level type. -/
structure Table where
  root : Root
  definitions : List Definition
  names_nodup : (definitions.map Definition.name).Nodup

namespace Table
variable (t : Table)

/-- The table without definitions. -/
def empty (root : Root) : Table := ⟨root, [], List.nodup_nil⟩

/-- The definition of a name. -/
def get? (name : String) : Option Definition := Keyed.find? Definition.name name t.definitions

def contains (name : String) : Bool := (t.get? name).isSome

/-- The names of the definitions, in declaration order. -/
def names : List String := t.definitions.map Definition.name

/-- The place of a definition in declaration order. -/
def index? (name : String) : Option Nat := t.definitions.findIdx? fun d => d.name = name

/-- Put a definition in the place of the one with its name, or at the end. -/
def insert (d : Definition) : Table :=
  { t with
    definitions := Keyed.upsert Definition.name d t.definitions
    names_nodup := Keyed.nodup_upsert Definition.name _ _ t.names_nodup }

/-- Change what the definitions declare. -/
def mapKinds (f : Definition → Kind) : Table :=
  { t with
    definitions := t.definitions.map fun d => { d with kind := f d }
    names_nodup := by
      rw [List.map_map]
      exact t.names_nodup }

theorem names_mapKinds (f : Definition → Kind) : (t.mapKinds f).names = t.names := by
  simp [names, mapKinds]

end Table

end SchemaModels
